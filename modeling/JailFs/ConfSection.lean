import JailFs.ConfComment

/-!
# Sections that set nothing

A line in a section that is neither `general` nor `language` is ignored, and so is a line in no
section. Two texts from which the ignored lines are deleted make the same calls when the same lines
are left. `dconf_load` is taken line by line for this, whatever the number of pieces that `fgets`
reads a line in.
-/

namespace JailFs

open Transducer Stdio

def aclName : CString := .ofChars "acl".toList

/-- A section that is neither `general` nor `language`, or none. -/
def Inert (sect : Option CString) : Prop :=
  ∀ s ∈ sect, strncaseEq s generalName 7 = false ∧ strncaseEq s languageName 8 = false

instance (sect : Option CString) : Decidable (Inert sect) :=
  inferInstanceAs (Decidable (∀ s ∈ sect, _))

/-- Two states that differ in the name of an inert section at most. -/
def LoadState.Alike (σ τ : LoadState) : Prop :=
  σ.inComment = τ.inComment ∧ (σ.sect = τ.sect ∨ Inert σ.sect ∧ Inert τ.sect)

/-- `dconf_load` on one line with its newline: the calls of all the rounds that read it. -/
def confText (σ : LoadState) (l : List UInt8) : LoadState × List LoadEvent :=
  (final confLine σ (pieces CONF_ROOM (l ++ [newline])),
    callsOf (output confLine σ (pieces CONF_ROOM (l ++ [newline]))))

/-- A line that is ignored where it stands: it fits into the buffer, and it is neither a header nor
does it open or close a block comment. -/
def ignored (σ : LoadState) (l : List UInt8) : Bool :=
  decide (Inert σ.sect) && decide (l.length + 1 < 768) && decide (newline ∉ l) &&
    !decide ((confSkip l).startsWith [91] ∧ (confSkip l).bytes.getLast? = some 93) &&
    !(confSkip l).startsWith [47, 42] && !(confSkip l).startsWith [42, 47]

/-- The lines of a text that are not ignored. -/
def essential (text : List UInt8) : List (List UInt8) :=
  busy confText ignored .init (text.splitOn newline)

section Isolation

variable {σ τ : LoadState} {buf l text text' : List UInt8} {ls : List (List UInt8)}
  {sect : Option CString} {s skip : CString} {d d' : Dict}

theorem joinLines_eq_intercalate : joinLines ls = [newline].intercalate ls := by
  induction ls using joinLines.induct with
  | case1 => rfl
  | case2 l => simp [joinLines]
  | case3 l l' ls ih => rw [joinLines, ih, List.intercalate_cons_cons, List.append_assoc]; rfl

theorem joinLines_splitOn (text : List UInt8) : joinLines (text.splitOn newline) = text := by
  rw [joinLines_eq_intercalate]
  exact List.intercalate_splitOn newline

theorem callsOf_loadEvents (text : List UInt8) :
    callsOf (loadEvents (some text)) = output confText .init (text.splitOn newline) := by
  suffices h : ∀ σ ls, ls ≠ [] →
      callsOf (output confLine σ (reads CONF_ROOM (joinLines ls))) = output confText σ ls by
    rw [loadEvents, ← h .init _ (List.splitOn_ne_nil _ _), joinLines_splitOn]
  intro σ ls hne
  induction ls using joinLines.induct generalizing σ with
  | case1 => exact absurd rfl hne
  | case2 l =>
    obtain ⟨ps, last, hreads, hpieces⟩ := reads_snoc room_pos l
    rw [joinLines, hreads, output_cons, output_nil, List.append_nil, confText, hpieces,
      output_append, output_append, output_cons, output_cons, confLine_line]
  | case3 l l' ls ih =>
    have hsplit : joinLines (l :: l' :: ls) = (l ++ [newline]) ++ joinLines (l' :: ls) := by
      rw [joinLines, List.append_assoc]
      rfl
    rw [hsplit, (wholeLines_snoc l).reads_append room_pos, output_append, callsOf_append,
      ih _ (by simp), output_cons (a := l)]
    rfl

theorem Inert.sectionLine (h : Inert (some s)) : sectionLine s skip = [] := by
  obtain ⟨hgeneral, hlanguage⟩ := h s rfl
  rw [JailFs.sectionLine, hgeneral, hlanguage]
  simp

theorem LoadState.Alike.refl (σ : LoadState) : σ.Alike σ := ⟨rfl, .inl rfl⟩

/-- What a state of an inert section does with a line of text, unless that is a header. -/
theorem textLine_of_inert (h : Inert σ.sect)
    (hheader : ¬ (skip.startsWith [91] ∧ skip.bytes.getLast? = some 93)) :
    (textLine σ skip).2 = [] ∧ (textLine σ skip).1.Alike σ := by
  rw [textLine, if_neg hheader]
  cases hs : σ.sect with
  | none => exact ⟨rfl, .refl σ⟩
  | some s =>
    rw [hs] at h
    simp only [h.sectionLine]
    split_ifs with hend
    · refine ⟨rfl, rfl, .inr ⟨?_, hs ▸ h⟩⟩
      simp [Inert]
    · exact ⟨rfl, .refl σ⟩

theorem bisim_confLine : Bisim confLine LoadState.Alike := by
  intro σ τ buf h
  by_cases htrim : OnlyTrimmed buf
  · rw [confLine_of_onlyTrimmed htrim, confLine_of_onlyTrimmed htrim]
    exact ⟨rfl, h⟩
  rw [confLine_eq htrim, confLine_eq htrim]
  cases lineKind (confSkip buf) with
  | short => exact ⟨rfl, h⟩
  | remark => exact ⟨rfl, h⟩
  | close => exact ⟨rfl, rfl, h.2⟩
  | opening => exact ⟨rfl, rfl, h.2⟩
  | text =>
    simp only [h.1]
    cases τ.inComment with
    | true => exact ⟨rfl, h⟩
    | false =>
      simp only [Bool.false_eq_true, if_false]
      rcases textLine_cases (confSkip buf) with ⟨sect, hset⟩ | ⟨-, -, hkeep⟩
      · rw [hset, hset]
        exact ⟨rfl, h.1, .inl rfl⟩
      · rw [hkeep, hkeep]
        refine ⟨?_, h⟩
        rcases h.2 with hsame | ⟨hσ, hτ⟩
        · rw [hsame]
        · have hnone (sect : Option CString) (hs : Inert sect) :
              ((sect.map fun s => sectionLine s (confSkip buf)).getD []) = [] := by
            cases sect with
            | none => rfl
            | some s => exact hs.sectionLine
          rw [hnone _ hσ, hnone _ hτ]

theorem bisim_confText : Bisim confText LoadState.Alike := by
  intro σ τ l h
  obtain ⟨hout, hfinal⟩ := bisim_confLine.run h (pieces CONF_ROOM (l ++ [newline]))
  exact ⟨congrArg callsOf hout, hfinal⟩

theorem confText_of_ignored (h : ignored σ l = true) :
    (confText σ l).2 = [] ∧ (confText σ l).1.Alike σ := by
  simp only [ignored, Bool.and_eq_true, decide_eq_true_eq, Bool.not_eq_true',
    decide_eq_false_iff_not] at h
  obtain ⟨⟨⟨⟨⟨hinert, hlen⟩, hl⟩, hheader⟩, hopen⟩, hclose⟩ := h
  obtain ⟨hstate, hcalls⟩ := run_pieces_line (σ := σ) hl (by rw [CONF_ROOM]; omega)
  rw [confText, hstate, hcalls]
  by_cases htrim : OnlyTrimmed l
  · rw [confLine_of_onlyTrimmed htrim]
    exact ⟨rfl, .refl σ⟩
  rw [confLine_eq htrim]
  cases hkind : lineKind (confSkip l) with
  | short => exact ⟨rfl, .refl σ⟩
  | remark => exact ⟨rfl, .refl σ⟩
  | close => exact absurd hkind (by simp [lineKind, hclose, ite_eq_iff])
  | opening => exact absurd hkind (by simp [lineKind, hclose, hopen, ite_eq_iff])
  | text =>
    cases hin : σ.inComment with
    | true => exact ⟨rfl, .refl σ⟩
    | false =>
      obtain ⟨hnone, halike⟩ := textLine_of_inert hinert hheader
      simp only [Bool.false_eq_true, if_false, hnone]
      exact ⟨rfl, halike⟩

theorem callsOf_eq_essential (text : List UInt8) :
    callsOf (loadEvents (some text)) = output confText .init (essential text) := by
  rw [callsOf_loadEvents, essential,
    bisim_confText.output_busy fun σ l h => confText_of_ignored h]

theorem general_of_dictAdd {key val : Option CString} (hs : σ.sect = some s)
    (h : .dictAdd key val ∈ (confLine σ buf).2) : strncaseEq s generalName 7 = true := by
  by_cases htrim : OnlyTrimmed buf
  · rw [confLine_of_onlyTrimmed htrim] at h
    simp at h
  rw [confLine_eq htrim] at h
  cases hkind : lineKind (confSkip buf) with
  | text =>
    simp only [hkind] at h
    split_ifs at h with hin
    · cases h
    · rcases textLine_cases (confSkip buf) with ⟨sect, hset⟩ | ⟨-, -, hkeep⟩
      · rw [hset] at h
        cases h
      · rw [hkeep, hs] at h
        by_contra hgeneral
        simp only [Option.map_some, Option.getD_some, sectionLine, if_neg hgeneral] at h
        split_ifs at h <;> simp at h
  | _ =>
    simp only [hkind] at h
    cases h

theorem not_general (h : strncaseEq s jailName 4 = true ∨ strncaseEq s aclName 3 = true) :
    strncaseEq s generalName 7 = false := by
  rw [Bool.eq_false_iff]
  intro hgeneral
  rcases h with h | h
  · exact absurd (strncaseEq_trans hgeneral (by decide) h) (by decide)
  · exact absurd (strncaseEq_trans hgeneral (by decide) h) (by decide)

/-- Two texts that differ only in ignored lines are loaded alike, and no line in a section `jail`
or `acl` sets a key. -/
theorem section_isolation (h : essential text = essential text') :
    (∀ d, Loads text d ↔ Loads text' d) ∧
      (∀ d d', Loads text d → Loads text' d' → d.toMap = d'.toMap) ∧
      ∀ pre buf post s, reads CONF_ROOM text = pre ++ buf :: post →
        (final confLine .init pre).sect = some s →
        (strncaseEq s jailName 4 = true ∨ strncaseEq s aclName 3 = true) →
        ∀ key val, .dictAdd key val ∉ (confLine (final confLine .init pre) buf).2 := by
  have hcalls : callsOf (loadEvents (some text)) = callsOf (loadEvents (some text')) := by
    rw [callsOf_eq_essential, callsOf_eq_essential, h]
  refine ⟨fun d => loads_congr hcalls, fun d d' hd hd' => ?_, ?_⟩
  · rw [hd.wf_and_map.2, ((loads_congr hcalls).mpr hd').wf_and_map.2]
  · intro pre buf post s _ hs hname key val hadd
    have hgeneral := general_of_dictAdd hs hadd
    rw [not_general hname] at hgeneral
    cases hgeneral

/-- A line of a jail, and two others in its place. -/
theorem section_isolation_jail :
    {d | Loads (bytesOf "[jail]\nport=1\n[general]\nport=80\n") d} =
      {d | Loads (bytesOf "[jail]\n@ENDIF\n port = 2\n[general]\nport=80\n") d} :=
  Set.ext (section_isolation (by decide +kernel)).1

end Isolation

end JailFs
