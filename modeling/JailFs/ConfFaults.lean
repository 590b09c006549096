import JailFs.ConfLoad

/-!
# Accesses outside the line buffer and `NULL` arguments

Which files make `dconf_load` read below its buffer or hand a `NULL` pointer to the C library: a
file that cannot be opened, a round whose buffer has nothing to keep, such as the one after a
final newline, and a line of delimiters in a `[language]` section. `dict_add` belongs to the
program and answers a `NULL` key itself.
-/

namespace JailFs

open Transducer

/-- The event stays inside the buffer and gives the C library no `NULL` pointer. -/
def LoadEvent.Safe : LoadEvent → Prop
  | .dictAdd _ _ => True
  | _ => False

instance (e : LoadEvent) : Decidable e.Safe := by
  cases e <;> unfold LoadEvent.Safe <;> infer_instance

/-- Outside comments, in a section whose name starts with `language`. -/
def LoadState.InLanguage (σ : LoadState) : Prop :=
  σ.inComment = false ∧
    ∃ sect, σ.sect = some sect ∧ strncaseEq sect languageName 8

/-- The trimmed line has at least two characters, all of them delimiters. -/
def OnlyDelims (buf : List UInt8) : Prop :=
  2 ≤ (confSkip buf).length ∧ ∀ c ∈ (confSkip buf).bytes, confDelim c

section Events

variable {σ : LoadState} {buf : List UInt8} {sect skip : CString} {e : LoadEvent}

theorem not_startsWith_of_delims (h : ∀ c ∈ skip.bytes, confDelim c) {x : UInt8}
    (hx : confDelim x = false) (l : List UInt8) : skip.startsWith (x :: l) = false := by
  rw [← Bool.not_eq_true, CString.startsWith_iff]
  intro hpre
  have hmem : confDelim x := h x (hpre.subset List.mem_cons_self)
  rw [hx] at hmem
  cases hmem

theorem not_end_of_delims (h : ∀ c ∈ skip.bytes, confDelim c) :
    strncaseEq skip endMark 4 = false := by
  rw [← Bool.not_eq_true, strncaseEq, decide_eq_true_eq]
  intro heq
  have hat : (64 : UInt8) ∈ (skip.bytes.take 4).map tolower := by
    rw [heq]
    decide
  obtain ⟨c, hc, hlow⟩ := List.mem_map.mp hat
  have hdelim := h c (List.mem_of_mem_take hc)
  simp only [confDelim, Bool.or_eq_true, decide_eq_true_eq] at hdelim
  rcases hdelim with (rfl | rfl) | rfl <;> revert hlow <;> decide

theorem not_general_of_language (h : strncaseEq sect languageName 8) :
    strncaseEq sect generalName 7 = false := by
  rw [← Bool.not_eq_true]
  intro hgeneral
  have := strncaseEq_trans h (by omega) hgeneral
  revert this
  decide

theorem not_jail_of_language (h : strncaseEq sect languageName 8) :
    strncaseEq sect jailName 4 = false := by
  rw [← Bool.not_eq_true]
  intro hjail
  have := strncaseEq_trans h (by omega) hjail
  revert this
  decide

theorem nullToken_mem_sectionLine_iff : .nullToken ∈ sectionLine sect skip ↔
    strncaseEq sect languageName 8 ∧ ∀ c ∈ skip.bytes, confDelim c := by
  rw [← keyVal_fst_eq_none_iff]
  unfold sectionLine
  by_cases hlang : strncaseEq sect languageName 8
  · simp only [not_general_of_language hlang, not_jail_of_language hlang, hlang,
      Bool.false_eq_true, if_false, if_true, true_and]
    split_ifs with hkey <;> simp [hkey]
  · rw [Bool.not_eq_true] at hlang
    simp only [hlang, Bool.false_eq_true, if_false, false_and, iff_false]
    split_ifs <;> simp

theorem mem_sectionLine (h : e ∈ sectionLine sect skip) :
    e = .nullToken ∨ ∃ key val, e = .dictAdd key val := by
  unfold sectionLine at h
  dsimp only at h
  split_ifs at h
  · exact Or.inr ⟨_, _, List.mem_singleton.mp h⟩
  · cases h
  · exact Or.inl (List.mem_singleton.mp h)
  · cases h
  · cases h

theorem textLine_of_delims (h : ∀ c ∈ skip.bytes, confDelim c) :
    textLine σ skip = (σ, (σ.sect.map fun sect => sectionLine sect skip).getD []) := by
  have hopen : skip.startsWith [91] = false := not_startsWith_of_delims h rfl _
  rw [textLine, if_neg (by simp [hopen])]
  cases σ.sect with
  | none => rfl
  | some sect => simp [not_end_of_delims h]

/-- Apart from its calls of `dict_add`, a line outside comments may pass a `NULL` token. -/
theorem mem_textLine (h : e ∈ (textLine σ skip).2) :
    ∃ sect, σ.sect = some sect ∧ e ∈ sectionLine sect skip := by
  rcases textLine_cases skip with ⟨sect, hset⟩ | ⟨_, _, hbranch⟩
  · rw [hset] at h
    cases h
  · rw [hbranch] at h
    cases hs : σ.sect with
    | none =>
      rw [hs] at h
      cases h
    | some sect =>
      rw [hs] at h
      exact ⟨sect, rfl, h⟩

theorem lineKind_of_delims (h : OnlyDelims buf) : lineKind (confSkip buf) = .text := by
  obtain ⟨hlen, hdelim⟩ := h
  rw [lineKind, if_neg (by omega), isLineComment]
  simp only [not_startsWith_of_delims hdelim (rfl : confDelim 42 = false),
    not_startsWith_of_delims hdelim (rfl : confDelim 59 = false),
    not_startsWith_of_delims hdelim (rfl : confDelim 35 = false),
    not_startsWith_of_delims hdelim (rfl : confDelim 47 = false), Bool.or_self,
    Bool.false_eq_true, if_false]

theorem mem_confLine (h : e ∈ (confLine σ buf).2) :
    OnlyTrimmed buf ∧ e = .belowBuffer ∨
      ¬ OnlyTrimmed buf ∧ lineKind (confSkip buf) = .text ∧ σ.inComment = false ∧
        e ∈ (textLine σ (confSkip buf)).2 := by
  by_cases htrim : OnlyTrimmed buf
  · rw [confLine_of_onlyTrimmed htrim] at h
    exact Or.inl ⟨htrim, List.mem_singleton.mp h⟩
  · rw [confLine_eq htrim] at h
    cases hkind : lineKind (confSkip buf) with
    | text =>
      simp only [hkind] at h
      split_ifs at h with hin
      · cases h
      · exact Or.inr ⟨htrim, rfl, by simpa using hin, h⟩
    | _ =>
      simp only [hkind] at h
      cases h

theorem belowBuffer_mem_confLine_iff : .belowBuffer ∈ (confLine σ buf).2 ↔ OnlyTrimmed buf := by
  constructor
  · intro h
    rcases mem_confLine h with ⟨htrim, _⟩ | ⟨_, _, _, htext⟩
    · exact htrim
    · obtain ⟨sect, _, hmem⟩ := mem_textLine htext
      rcases mem_sectionLine hmem with h | ⟨_, _, h⟩ <;> cases h
  · intro htrim
    rw [confLine_of_onlyTrimmed htrim]
    exact List.mem_singleton_self _

theorem nullToken_mem_confLine_iff :
    .nullToken ∈ (confLine σ buf).2 ↔ σ.InLanguage ∧ OnlyDelims buf := by
  constructor
  · intro h
    rcases mem_confLine h with ⟨_, he⟩ | ⟨_, hkind, hin, htext⟩
    · cases he
    · obtain ⟨sect, hs, hmem⟩ := mem_textLine htext
      obtain ⟨hlang, hdelim⟩ := nullToken_mem_sectionLine_iff.mp hmem
      refine ⟨⟨hin, sect, hs, hlang⟩, ?_, hdelim⟩
      by_contra hlen
      rw [lineKind, if_pos (by omega)] at hkind
      cases hkind
  · rintro ⟨⟨hin, sect, hs, hlang⟩, hdelim⟩
    have hkind := lineKind_of_delims hdelim
    rw [confLine_eq (not_onlyTrimmed_of_text hkind), hkind]
    simp only [hin, Bool.false_eq_true, if_false]
    rw [textLine_of_delims hdelim.2, hs]
    exact nullToken_mem_sectionLine_iff.mpr ⟨hlang, hdelim.2⟩

theorem not_nullStream_mem_confLine : .nullStream ∉ (confLine σ buf).2 := by
  intro h
  rcases mem_confLine h with ⟨_, he⟩ | ⟨_, _, _, htext⟩
  · cases he
  · obtain ⟨sect, _, hmem⟩ := mem_textLine htext
    rcases mem_sectionLine hmem with h | ⟨_, _, h⟩ <;> cases h

/-- A round is safe unless it finds nothing to keep, or delimiters only in a language section. -/
theorem confLine_safe_iff : (∀ e ∈ (confLine σ buf).2, e.Safe) ↔
    ¬ OnlyTrimmed buf ∧ (σ.InLanguage → ¬ OnlyDelims buf) := by
  constructor
  · intro h
    refine ⟨fun htrim => h _ (belowBuffer_mem_confLine_iff.mpr htrim), fun hlang hdelim => ?_⟩
    exact h _ (nullToken_mem_confLine_iff.mpr ⟨hlang, hdelim⟩)
  · rintro ⟨htrim, hdelim⟩ e he
    cases e with
    | belowBuffer => exact htrim (belowBuffer_mem_confLine_iff.mp he)
    | nullToken =>
      obtain ⟨hlang, hd⟩ := nullToken_mem_confLine_iff.mp he
      exact hdelim hlang hd
    | nullStream => exact not_nullStream_mem_confLine he
    | dictAdd key val => exact trivial

end Events

/-- `dconf_load` stays inside its buffer, gives the C library no `NULL` pointer and answers an
unopenable file with `NULL`, exactly when the file opens, every round finds something to keep in
the buffer, and no line of a language section consists of delimiters only. -/
theorem dconfLoad_safe_iff (file : Option (List UInt8)) :
    ((∀ e ∈ loadEvents file, e.Safe) ∧ (file = none → ∀ r, DconfLoad file r → r = none)) ↔
      ∃ text, file = some text ∧ (∀ buf ∈ Stdio.reads CONF_ROOM text, ¬ OnlyTrimmed buf) ∧
        ∀ pre buf post, Stdio.reads CONF_ROOM text = pre ++ buf :: post →
          (final confLine .init pre).InLanguage → ¬ OnlyDelims buf := by
  cases file with
  | none =>
    constructor
    · rintro ⟨hsafe, _⟩
      exact (hsafe _ (List.mem_singleton_self _)).elim
    · rintro ⟨text, htext, _⟩
      cases htext
  | some text =>
    have hround : (∀ e ∈ loadEvents (some text), e.Safe) ↔
        ∀ pre buf post, Stdio.reads CONF_ROOM text = pre ++ buf :: post →
          ∀ e ∈ (confLine (final confLine .init pre) buf).2, e.Safe := by
      constructor
      · intro h pre buf post hsplit e he
        exact h e (mem_output_iff.mpr ⟨pre, buf, post, hsplit, he⟩)
      · intro h e he
        obtain ⟨pre, buf, post, hsplit, hmem⟩ := mem_output_iff.mp he
        exact h pre buf post hsplit e hmem
    rw [hround]
    simp only [confLine_safe_iff]
    constructor
    · rintro ⟨h, _⟩
      refine ⟨text, rfl, fun buf hbuf => ?_, fun pre buf post hsplit => (h pre buf post hsplit).2⟩
      obtain ⟨pre, post, hsplit⟩ := List.append_of_mem hbuf
      exact (h pre buf post hsplit).1
    · rintro ⟨text', heq, htrim, hdelim⟩
      cases heq
      refine ⟨fun pre buf post hsplit => ⟨htrim buf ?_, hdelim pre buf post hsplit⟩, fun h => ?_⟩
      · rw [hsplit]
        exact List.mem_append_right _ List.mem_cons_self
      · cases h

/-- The configuration `"[general]\nport=80\n"` ends with a newline: after the last line there is
one more round, with an empty buffer. -/
theorem dconfLoad_reads_below_buffer :
    ¬ ∀ file : Option (List UInt8), (∀ e ∈ loadEvents file, e.Safe) ∧
      (file = none → ∀ r, DconfLoad file r → r = none) := by
  intro h
  have hsafe := (h (some ("[general]\nport=80\n".toList.map Char.toUInt8))).1
  have hevents : loadEvents (some ("[general]\nport=80\n".toList.map Char.toUInt8)) =
      [.dictAdd (some (.ofChars "port".toList)) (some (.ofChars "80".toList)), .belowBuffer] := rfl
  rw [hevents] at hsafe
  exact hsafe .belowBuffer (by simp)

end JailFs
