import JailFs.ConfText

/-!
# The value of a setting

A line `k=v` or `k = v` in a general section gives `k` the first token of `v`. So `dict_get`
answers with the whole of `v` when `v` has no delimiter in it and does not end with a carriage
return, which the trimming loop takes off.
-/

namespace JailFs

open Transducer Stdio

/-- Outside comments, in a section whose name starts with `general`. -/
def LoadState.InGeneral (σ : LoadState) : Prop :=
  σ.inComment = false ∧ ∃ sect, σ.sect = some sect ∧ strncaseEq sect generalName 7

/-- The bytes `;`, `#`, `/`, `*`, `[` and `@`, each the start of a rule of the parser. -/
def specialStarts : List UInt8 := [59, 35, 47, 42, 91, 64]

/-- A key without blanks or `=` that does not start like a comment, a section or a directive. -/
structure PlainKey (key : CString) : Prop where
  start : ∃ c rest, key.bytes = c :: rest ∧ c ∉ specialStarts
  noDelim : ∀ c ∈ key.bytes, c ≠ 32 ∧ c ≠ 61

/-- The line reaches the branch of its section. -/
structure IsSetting (skip : CString) : Prop where
  kind : lineKind skip = .text
  notHeader : ¬ (skip.startsWith [91] ∧ skip.bytes.getLast? = some 93)
  notEnd : strncaseEq skip endMark 4 = false

/-- In the state `σ` the line calls `dict_add` with this key and a value. -/
def Assigns (σ : LoadState) (line : List UInt8) (key : CString) : Prop :=
  ∃ val, .dictAdd (some key) (some val) ∈ (confLine σ line).2

/-- The map that the lines of a text describe. -/
def linesMap (ls : List (List UInt8)) : StringMap := mapOf (addsOf (output confLine .init ls))

section Lists

variable {α : Type} {p : α → Bool} {a b : List α}

theorem rdropWhile_append : (a ++ b).rdropWhile p =
    if b.rdropWhile p = [] then a.rdropWhile p else a ++ b.rdropWhile p := by
  induction b using List.reverseRecOn with
  | nil => simp
  | append_singleton b x ih =>
    rw [← List.append_assoc, List.rdropWhile_concat, List.rdropWhile_concat]
    split_ifs with hx hb hb
    · rw [ih, if_pos hb]
    · rw [ih, if_neg hb]
    · simp at hb
    · rw [List.append_assoc]

end Lists

section Settings

variable {σ : LoadState} {buf : List UInt8} {skip key val : CString}

theorem confLine_of_setting (hσ : σ.InGeneral) (h : IsSetting (confSkip buf)) :
    confLine σ buf = (σ, [.dictAdd (keyVal (confSkip buf)).1 (keyVal (confSkip buf)).2]) := by
  obtain ⟨hin, sect, hs, hgen⟩ := hσ
  rw [confLine_eq (not_onlyTrimmed_of_text h.kind), h.kind]
  simp only [hin, Bool.false_eq_true, if_false]
  rw [textLine, if_neg h.notHeader, hs]
  simp only [h.notEnd, Bool.false_eq_true, if_false, sectionLine, hgen, if_true]

theorem not_startsWith_of_head {c x : UInt8} {rest : List UInt8} (hs : skip.bytes = c :: rest)
    (hne : c ≠ x) (l : List UInt8) : skip.startsWith (x :: l) = false := by
  rw [← Bool.not_eq_true, CString.startsWith_iff, hs, List.cons_prefix_cons]
  exact fun h => hne h.1.symm

theorem isSetting_of_head {c : UInt8} {rest : List UInt8} (hs : skip.bytes = c :: rest)
    (hc : c ∉ specialStarts) (hlen : 2 ≤ skip.length) : IsSetting skip := by
  simp only [specialStarts, List.mem_cons, List.not_mem_nil, or_false, not_or] at hc
  obtain ⟨h59, h35, h47, h42, h91, h64⟩ := hc
  refine ⟨?_, ?_, ?_⟩
  · rw [lineKind, if_neg (by omega), isLineComment]
    simp only [not_startsWith_of_head hs h42, not_startsWith_of_head hs h59,
      not_startsWith_of_head hs h35, not_startsWith_of_head hs h47, Bool.or_self,
      Bool.false_eq_true, if_false]
  · simp [not_startsWith_of_head hs h91]
  · rw [← Bool.not_eq_true, strncaseEq, decide_eq_true_eq, hs]
    intro h
    have hhead : tolower c = 64 := (List.cons.inj h).1
    exact h64 (tolower_eq_of_lt hhead (by decide))

/-- What the trimming leaves of a line for `key` and `val`: the key, a delimiter, and text that
`strtok` reads as it reads the trimmed value. -/
theorem confSkip_setting (hne : key.bytes ≠ []) (hkey : ∀ c ∈ key.bytes, confDelim c = false)
    (hbuf : buf = key.bytes ++ [61] ++ val.bytes ∨ buf = key.bytes ++ [32, 61, 32] ++ val.bytes) :
    ∃ d tail, (confSkip buf).bytes = key.bytes ++ d :: tail ∧ confDelim d ∧
      tail.dropWhile confDelim = (trimEnd val).bytes.dropWhile confDelim := by
  obtain ⟨c, rest, hc⟩ := List.exists_cons_of_ne_nil hne
  have hblank : c ≠ 32 := by
    rintro rfl
    have := hkey 32 (by rw [hc]; exact List.mem_cons_self)
    cases this
  have hskip (l : List UInt8) (h0 : 0 ∉ buf)
      (hl : buf.rdropWhile isTrimmed = key.bytes ++ l) :
      (confSkip buf).bytes = key.bytes ++ l := by
    change ((CString.ofBuffer buf).bytes.rdropWhile isTrimmed).dropWhile (· = 32) = _
    rw [bytes_ofBuffer h0, hl, hc, List.cons_append,
      List.dropWhile_cons_of_neg (by simpa using hblank)]
  have heq : ([61] : List UInt8).rdropWhile isTrimmed = [61] := rfl
  have hval : (trimEnd val).bytes = val.bytes.rdropWhile isTrimmed := rfl
  rw [hval]
  rcases hbuf with rfl | rfl
  · refine ⟨61, val.bytes.rdropWhile isTrimmed, hskip _ ?_ ?_, rfl, rfl⟩
    · simp [key.noNul, val.noNul]
    · rw [List.append_assoc, rdropWhile_append, rdropWhile_append, heq]
      split_ifs <;> simp_all
  · refine ⟨32, 61 :: (if val.bytes.rdropWhile isTrimmed = [] then []
      else 32 :: val.bytes.rdropWhile isTrimmed), hskip _ ?_ ?_, rfl, ?_⟩
    · simp [key.noNul, val.noNul]
    · have hsep : ([32, 61, 32] : List UInt8).rdropWhile isTrimmed = [32, 61] := rfl
      rw [List.append_assoc, rdropWhile_append, rdropWhile_append, hsep]
      split_ifs <;> simp_all
    · split_ifs with hnil
      · rw [hnil]
        rfl
      · rfl

theorem keyVal_of_strtok {rest : CString} (h : strtok confDelim skip = some (key, rest)) :
    keyVal skip = (some key, (strtok confDelim rest).map Prod.fst) := by
  rw [keyVal, h]

theorem keyVal_setting (hne : key.bytes ≠ []) (hkey : ∀ c ∈ key.bytes, confDelim c = false)
    (hbuf : buf = key.bytes ++ [61] ++ val.bytes ∨ buf = key.bytes ++ [32, 61, 32] ++ val.bytes) :
    keyVal (confSkip buf) = (some key, (strtok confDelim (trimEnd val)).map Prod.fst) := by
  obtain ⟨d, tail, hskip, hd, htail⟩ := confSkip_setting hne hkey hbuf
  obtain ⟨rest, hrest, hbytes⟩ := strtok_of_start hskip hne hkey (by simpa using hd)
  have hcongr : strtok confDelim rest = strtok confDelim (trimEnd val) :=
    strtok_congr (by rw [hbytes]; exact htail)
  rw [keyVal_of_strtok hrest, hcongr]

theorem PlainKey.of_all {c : UInt8} {rest : List UInt8} (hc : key.bytes = c :: rest)
    (hstart : c ∉ specialStarts) (hall : key.bytes.all (fun c => c ≠ 32 && c ≠ 61)) :
    PlainKey key :=
  ⟨⟨c, rest, hc, hstart⟩, by simpa using hall⟩

theorem PlainKey.confDelim (hkey : PlainKey key) (hnl : newline ∉ key.bytes) :
    ∀ c ∈ key.bytes, JailFs.confDelim c = false := by
  intro c hmem
  obtain ⟨h32, h61⟩ := hkey.noDelim c hmem
  have h10 : c ≠ 10 := by
    rintro rfl
    exact hnl hmem
  simp [JailFs.confDelim, h32, h61, h10]

theorem confLine_setting (hσ : σ.InGeneral) (hkey : PlainKey key) (hnl : newline ∉ key.bytes)
    (hbuf : buf = key.bytes ++ [61] ++ val.bytes ∨ buf = key.bytes ++ [32, 61, 32] ++ val.bytes) :
    confLine σ buf =
      (σ, [.dictAdd (some key) ((strtok confDelim (trimEnd val)).map Prod.fst)]) := by
  obtain ⟨c, rest, hc, hstart⟩ := hkey.start
  have hne : key.bytes ≠ [] := by simp [hc]
  have hdelim := hkey.confDelim hnl
  obtain ⟨d, tail, hskip, _, _⟩ := confSkip_setting hne hdelim hbuf
  have hset : IsSetting (confSkip buf) := by
    refine isSetting_of_head (by rw [hskip, hc]; rfl) hstart ?_
    rw [CString.length, hskip, hc, List.length_append, List.length_cons, List.length_cons]
    omega
  rw [confLine_of_setting hσ hset, keyVal_setting hne hdelim hbuf]

theorem strtok_trimEnd (h : ∀ c ∈ val.bytes, confDelim c = false) :
    (strtok confDelim (trimEnd val)).map Prod.fst =
      if (trimEnd val).bytes = [] then none else some (trimEnd val) :=
  strtok_of_noDelim fun c hc => h c ((List.rdropWhile_prefix isTrimmed _).subset hc)

end Settings

section Map

variable {σ : LoadState} {ls : List (List UInt8)} {key val : CString}

theorem setting_of_dictAdd {k w : Option CString} {buf : List UInt8}
    (h : .dictAdd k w ∈ (confLine σ buf).2) :
    IsSetting (confSkip buf) ∧ keyVal (confSkip buf) = (k, w) := by
  rcases mem_confLine h with ⟨_, he⟩ | ⟨_, hkind, _, htext⟩
  · cases he
  · obtain ⟨sect, _, hmem⟩ := mem_textLine htext
    constructor
    · rcases textLine_cases (confSkip buf) with ⟨sect, hset⟩ | ⟨hheader, hend, _⟩
      · rw [hset] at htext
        cases htext
      · exact ⟨hkind, hheader, hend⟩
    · unfold sectionLine at hmem
      dsimp only at hmem
      split_ifs at hmem <;> simp_all

theorem keyVal_noDelim {skip : CString} :
    (∀ tok ∈ (keyVal skip).1, ∀ c ∈ tok.bytes, confDelim c = false) ∧
      ∀ tok ∈ (keyVal skip).2, ∀ c ∈ tok.bytes, confDelim c = false := by
  unfold keyVal
  cases hk : strtok confDelim skip with
  | none => exact ⟨by simp, by simp⟩
  | some r =>
    obtain ⟨key, rest⟩ := r
    refine ⟨?_, ?_⟩
    · rintro tok ⟨⟩
      exact strtok_token_no_delim hk
    · intro tok htok
      obtain ⟨⟨tok', rest'⟩, hv, rfl⟩ := Option.map_eq_some_iff.mp htok
      exact strtok_token_no_delim hv

theorem linesMap_noDelim (h : linesMap ls key = some (some val)) :
    ∀ c ∈ val.bytes, confDelim c = false := by
  obtain ⟨k, w, hop, hmem⟩ := mem_addsOf_iff.mp (exists_add_of_mapOf_val adds_of_addsOf h)
  cases hop
  obtain ⟨pre, buf, post, _, hcall⟩ := mem_output_iff.mp hmem
  have hval := congrArg Prod.snd (setting_of_dictAdd hcall).2
  exact keyVal_noDelim.2 val hval

end Map

section Value

variable {val : CString} {old : Option CString}

/-- The value is read back whole: it has no delimiter in it, and the trimming takes nothing. -/
def ReadWhole (val : CString) : Prop :=
  (∀ c ∈ val.bytes, c ≠ 32 ∧ c ≠ 61) ∧ val.bytes.getLast? ≠ some 13

theorem trimEnd_eq_self_iff (hnl : newline ∉ val.bytes) (hblank : 32 ∉ val.bytes) :
    trimEnd val = val ↔ val.bytes.getLast? ≠ some 13 := by
  have hbytes : trimEnd val = val ↔ val.bytes.rdropWhile isTrimmed = val.bytes :=
    ⟨congrArg CString.bytes, fun h => CString.ext h⟩
  rw [hbytes, List.rdropWhile_eq_self_iff]
  by_cases hv : val.bytes = []
  · simp [hv]
  · rw [List.getLast?_eq_some_getLast hv]
    have hmem := List.getLast_mem hv
    have h10 : val.bytes.getLast hv ≠ 10 := ne_of_mem_of_not_mem hmem hnl
    have h32 : val.bytes.getLast hv ≠ 32 := ne_of_mem_of_not_mem hmem hblank
    simp [hv, isTrimmed, h10, h32]

/-- A line with the value `val` leaves a key with `val` when the value is read whole, or when it
is read as no value at all and the key had `val` before. -/
theorem value_iff (hne : val.bytes ≠ []) (hnl : newline ∉ val.bytes)
    (hold : ∀ w ∈ old, ∀ c ∈ w.bytes, confDelim c = false) :
    ((strtok confDelim (trimEnd val)).map Prod.fst).or old = some val ↔
      ReadWhole val ∨ (∀ c ∈ val.bytes, c = 13) ∧ old = some val := by
  by_cases hdelim : ∀ c ∈ val.bytes, confDelim c = false
  · have hplain : ∀ c ∈ val.bytes, c ≠ 32 ∧ c ≠ 61 := by
      intro c hc
      have := hdelim c hc
      simp only [confDelim, Bool.or_eq_false_iff, decide_eq_false_iff_not] at this
      exact ⟨this.1.2, this.1.1⟩
    have hblank : 32 ∉ val.bytes := fun h => (hplain _ h).1 rfl
    rw [strtok_trimEnd hdelim]
    by_cases hnil : (trimEnd val).bytes = []
    · have hcr : ∀ c ∈ val.bytes, c = 13 := by
        intro c hc
        have htrim : isTrimmed c := List.rdropWhile_eq_nil_iff.mp hnil c hc
        have hd := hdelim c hc
        simp only [isTrimmed, confDelim, Bool.or_eq_true, Bool.or_eq_false_iff,
          decide_eq_true_eq, decide_eq_false_iff_not] at htrim hd
        tauto
      have hlast : val.bytes.getLast? = some 13 := by
        rw [List.getLast?_eq_some_getLast hne, hcr _ (List.getLast_mem hne)]
      have hnot : ¬ ReadWhole val := fun h => h.2 hlast
      rw [if_pos hnil, Option.none_or]
      exact ⟨fun h => Or.inr ⟨hcr, h⟩, fun h => (h.resolve_left hnot).2⟩
    · rw [if_neg hnil, Option.some_or, Option.some.injEq, trimEnd_eq_self_iff hnl hblank]
      have hno : ¬ ∀ c ∈ val.bytes, c = 13 := by
        intro hcr
        exact hnil (List.rdropWhile_eq_nil_iff.mpr fun c hc => by rw [hcr c hc]; rfl)
      simp only [ReadWhole, hno, false_and, or_false]
      exact ⟨fun h => ⟨hplain, h⟩, fun h => h.2⟩
  · have hfalse : ¬ (ReadWhole val ∨ (∀ c ∈ val.bytes, c = 13) ∧ old = some val) := by
      rintro (⟨hplain, _⟩ | ⟨hcr, _⟩)
      · apply hdelim
        intro c hc
        have h10 : c ≠ 10 := by
          rintro rfl
          exact hnl hc
        simp [confDelim, hplain c hc, h10]
      · apply hdelim
        intro c hc
        rw [hcr c hc]
        rfl
    refine ⟨fun h => absurd ?_ hdelim, fun h => absurd h hfalse⟩
    cases hk : strtok confDelim (trimEnd val) with
    | none =>
      rw [hk] at h
      exact hold val h
    | some r =>
      obtain ⟨tok, rest⟩ := r
      rw [hk] at h
      cases h
      exact strtok_token_no_delim hk

end Value

/-- Let the last line that assigns `k` be `k=v` or `k = v`, in a general section and outside
comments, in a text whose lines with their newlines are shorter than the buffer of 768 bytes. Then
`dict_get` answers with the whole of `v` exactly when `v` has no blank and no `=` in it and does
not end with a carriage return; or `v` is made of carriage returns only, and was the value of `k`
before. -/
theorem dconfLoad_value_iff {pre post : List (List UInt8)} {line : List UInt8} {k v : CString}
    {d : Dict} (hlines : ∀ l ∈ pre ++ line :: post, newline ∉ l ∧ l.length + 1 < 768)
    (hkey : PlainKey k) (hval : v.bytes ≠ [])
    (hline : line = k.bytes ++ [61] ++ v.bytes ∨ line = k.bytes ++ [32, 61, 32] ++ v.bytes)
    (hgeneral : (final confLine .init pre).InGeneral)
    (hlast : ∀ pre' l post', post = pre' ++ l :: post' →
      ¬ Assigns (final confLine .init (pre ++ line :: pre')) l k)
    (hload : Loads (joinLines (pre ++ line :: post)) d) (defval : Option CString) :
    Fuel.Returns (d.get (some k) defval) (some v) ↔
      ReadWhole v ∨ (∀ c ∈ v.bytes, c = 13) ∧ linesMap pre k = some (some v) := by
  obtain ⟨hwf, hmap⟩ := hload.wf_and_map
  have hfit : ∀ l ∈ pre ++ line :: post, newline ∉ l ∧ l.length ≤ CONF_ROOM := by
    intro l hl
    obtain ⟨hnl, hlen⟩ := hlines l hl
    have hroom : CONF_ROOM = 766 := rfl
    exact ⟨hnl, by omega⟩
  obtain ⟨hnlk, hnlv⟩ : newline ∉ k.bytes ∧ newline ∉ v.bytes := by
    have hnl := (hlines line (by simp)).1
    rcases hline with rfl | rfl <;> simp only [List.mem_append, not_or] at hnl <;>
      exact ⟨hnl.1.1, hnl.2⟩
  have hcall := confLine_setting hgeneral hkey hnlk hline
  generalize hx : (strtok confDelim (trimEnd v)).map Prod.fst = x at hcall
  let σ := final confLine .init pre
  let tail := addsOf (output confLine σ post)
  have hops : confOps (joinLines (pre ++ line :: post)) =
      addsOf (output confLine .init pre) ++ ([.add k x] ++ tail) := by
    rw [confOps_joinLines hfit, output_append, output_cons, hcall]
    simp [addsOf, LoadEvent.toOp, tail, σ]
  have hkeep : ∀ w, .add k (some w) ∉ tail := by
    intro w hw
    obtain ⟨k', w', hop, hmem⟩ := mem_addsOf_iff.mp hw
    cases hop
    obtain ⟨pre', l, post', hsplit, hl⟩ := mem_output_iff.mp hmem
    refine hlast pre' l post' hsplit ⟨w, ?_⟩
    rwa [final_append, final_cons, hcall]
  have hpresent : d.toMap k = some (x.or (linesMap pre k).join) := by
    rw [hmap, hops, mapOf_append, List.foldl_append]
    exact foldl_effect_keep adds_of_addsOf hkeep (by simp [DictOp.effect, linesMap])
  have hreturns : Fuel.Returns (d.get (some k) defval) (x.or (linesMap pre k).join) :=
    hwf.get_returns_of_present hpresent
  have hold : ∀ w ∈ (linesMap pre k).join, ∀ c ∈ w.bytes, confDelim c = false := by
    intro w hw
    exact linesMap_noDelim (Option.join_eq_some_iff.mp hw)
  rw [← Option.join_eq_some_iff, ← value_iff hval hnlv hold, hx]
  constructor
  · intro h
    exact hreturns.unique (Dict.get_stable hwf) h
  · intro h
    rwa [h] at hreturns

/-- `"[general]\nmode = ro\n[jail]"` -/
theorem dconfLoad_value_iff_mode :
    ∃ d, Loads (joinLines ([bytesOf "[general]"] ++ bytesOf "mode = ro" :: [bytesOf "[jail]"])) d ∧
      ∀ defval, (Fuel.Returns (d.get (some (.ofChars "mode".toList)) defval)
          (some (.ofChars "ro".toList)) ↔
        ReadWhole (.ofChars "ro".toList) ∨
          (∀ c ∈ (CString.ofChars "ro".toList).bytes, c = 13) ∧
            linesMap [bytesOf "[general]"] (.ofChars "mode".toList) =
              some (some (.ofChars "ro".toList))) := by
  have hes : loadEvents (some (joinLines
      ([bytesOf "[general]"] ++ bytesOf "mode = ro" :: [bytesOf "[jail]"]))) =
        [.dictAdd (some (.ofChars "mode".toList)) (some (.ofChars "ro".toList))] := rfl
  obtain ⟨d, hload, _⟩ := exists_loads hes (by simp) (by decide)
  refine ⟨d, hload, fun defval => dconfLoad_value_iff (by decide) ?_ (by decide)
    (Or.inr (by decide)) ?_ ?_ hload defval⟩
  · exact .of_all rfl (by decide) rfl
  · exact ⟨by decide, _, rfl, by decide⟩
  · intro pre' l post' hsplit
    cases pre' with
    | nil =>
      cases hsplit
      rintro ⟨val, hmem⟩
      have hnone : (confLine (final confLine .init [bytesOf "[general]", bytesOf "mode = ro"])
          (bytesOf "[jail]")).2 = [] := by decide
      exact List.not_mem_nil (hnone ▸ hmem)
    | cons l' pre' => simp at hsplit

/-- After `"[general]\nmotd=hello world"` the value of `motd` is `hello`. -/
theorem dconfLoad_value_cut : ¬ ∀ (pre post : List (List UInt8)) (line : List UInt8)
    (k v : CString) (d : Dict),
    (∀ l ∈ pre ++ line :: post, newline ∉ l ∧ l.length + 1 < 768) → PlainKey k → v.bytes ≠ [] →
    line = k.bytes ++ [61] ++ v.bytes ∨ line = k.bytes ++ [32, 61, 32] ++ v.bytes →
    (∀ c ∈ v.bytes.head?, c ≠ 32 ∧ c ≠ 9) → (∀ c ∈ v.bytes.getLast?, c ≠ 32 ∧ c ≠ 9) →
    (final confLine .init pre).InGeneral →
    (∀ pre' l post', post = pre' ++ l :: post' →
      ¬ Assigns (final confLine .init (pre ++ line :: pre')) l k) →
    Loads (joinLines (pre ++ line :: post)) d →
    ∀ defval, Fuel.Returns (d.get (some k) defval) (some v) := by
  intro h
  let k : CString := .ofChars "motd".toList
  let hello : CString := .ofChars "hello".toList
  have hes : loadEvents (some (joinLines ([bytesOf "[general]"] ++ bytesOf "motd=hello world" ::
      []))) = [.dictAdd (some k) (some hello)] := rfl
  obtain ⟨d, hload, hmap⟩ := exists_loads hes (by simp) (by decide)
  have hwhole := h _ [] _ k (.ofChars "hello world".toList) d (by decide)
    (.of_all rfl (by decide) rfl) (by decide) (Or.inl (by decide)) (by rintro c ⟨⟩; decide)
    (by rintro c ⟨⟩; decide) ⟨by decide, _, rfl, by decide⟩ (by simp) hload none
  have hkey : d.toMap k = some (some hello) := by
    rw [hmap]
    exact mapOf_add ..
  have hcut : Fuel.Returns (d.get (some k) none) (some hello) :=
    hload.wf_and_map.1.get_returns_of_present hkey
  have heq := hwhole.unique (Dict.get_stable hload.wf_and_map.1) hcut
  revert heq
  decide

end JailFs
