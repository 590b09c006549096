import JailFs.ConfEntry
import JailFs.DictFilled

/-!
# Saving a configuration and loading it again

A loaded dictionary comes back from `dconf_write` and `dconf_load` when each of its lines
`key=value` is read as a setting again and ends where its value ends. What fails is a key that
starts a comment, a section or `@END` once `=` follows it, a value that ends with a carriage
return, and a key without a value: it is printed as `UNDEF`, and comes back with that value
unless the key is so long that `UNDEF` falls into a second round.
-/

namespace JailFs

open Transducer Stdio

/-- What the first round sees of a saved line, which has no blanks to trim. -/
def savedHead (key : CString) (val : Option CString) : CString :=
  (key ++ .ofChars ['='] ++ val.getD undef).take CONF_ROOM

/-- Every entry of the dictionary is read back from its saved line. -/
structure Dict.Survives (d : Dict) : Prop where
  settings : ∀ key val, d.toMap key = some val → IsSetting (savedHead key val)
  noReturn : ∀ key val, d.toMap key = some (some val) → val.bytes.getLast? ≠ some 13
  noValue : ∀ key, d.toMap key = some none →
    CONF_ROOM - 1 ≤ key.length ∧ ∃ val, d.toMap undef = some (some val)

section Head

variable {key : CString} {val : Option CString}

theorem TokenPair.value_tidy (h : TokenPair key val)
    (hlast : ∀ w ∈ val, w.bytes.getLast? ≠ some 13) :
    ((val.getD undef).take (CONF_ROOM - 1 - key.length)).bytes.rdropWhile isTrimmed =
      ((val.getD undef).take (CONF_ROOM - 1 - key.length)).bytes := by
  cases val with
  | none =>
    have hbytes : undef.bytes = [85, 78, 68, 69, 70] := rfl
    have hundef : ∀ c ∈ undef.bytes, isTrimmed c = false := by simp [hbytes, isTrimmed]
    rw [List.rdropWhile_eq_self_iff]
    intro hne'
    have hmem := List.getLast_mem hne'
    rw [hundef _ (List.mem_of_mem_take hmem)]
    exact Bool.false_ne_true
  | some w =>
    have hle := h.val_le w rfl
    have hdelim := h.val_noDelim w rfl
    have hnot (c : UInt8) (hc : confDelim c) : c ∉ w.bytes := by
      intro hmem
      rw [hdelim c hmem] at hc
      cases hc
    have htrim : trimEnd w = w :=
      (trimEnd_eq_self_iff (hnot newline rfl) (hnot 32 rfl)).mpr (hlast w rfl)
    rw [Option.getD_some, CString.take_of_length_le (by omega)]
    exact congrArg CString.bytes htrim

/-- Nothing of the first piece is trimmed unless the value ends with a carriage return. -/
theorem TokenPair.confSkip_firstPiece (h : TokenPair key val)
    (hlast : ∀ w ∈ val, w.bytes.getLast? ≠ some 13) :
    confSkip (firstPiece key val) = savedHead key val := by
  have hhead : (savedHead key val).bytes = firstPiece key val := rfl
  have hnul : 0 ∉ firstPiece key val := hhead ▸ (savedHead key val).noNul
  have hskip : (confSkip (firstPiece key val)).bytes =
      ((firstPiece key val).rdropWhile isTrimmed).dropWhile (· = 32) := by
    change ((CString.ofBuffer (firstPiece key val)).bytes.rdropWhile isTrimmed).dropWhile _ = _
    rw [bytes_ofBuffer hnul]
  apply CString.ext
  rw [hskip, hhead]
  by_cases hfull : key.length = CONF_ROOM
  · have htrim : key.bytes.rdropWhile isTrimmed = key.bytes :=
      congrArg CString.bytes (h.key_full hfull)
    have hdrop := h.dropBlanks []
    rw [List.append_nil] at hdrop
    rw [firstPiece_of_full hfull, htrim, hdrop]
  · have htrim := h.value_tidy hlast
    have hsep : (key.bytes ++ [61]).rdropWhile isTrimmed = key.bytes ++ [61] :=
      List.rdropWhile_concat_neg _ _ _ (by decide)
    rw [h.firstPiece_of_ne hfull, rdropWhile_append, htrim, hsep]
    split_ifs with hnil
    · rw [hnil, List.append_nil, h.dropBlanks]
    · rw [List.append_assoc, h.dropBlanks]

end Head

section Saved

variable {σ : LoadState} {t : CTime} {d : Dict} {es : List (CString × Option CString)}

/-- The lines of `dict_dump`. -/
def entriesText (es : List (CString × Option CString)) : List UInt8 :=
  es.flatMap fun e => entryLine e.1 e.2

theorem wholeLines_entryLine (e : CString × Option CString) :
    WholeLines (entryLine e.1 e.2) := wholeLines_snoc _

theorem wholeLines_entriesText (es : List (CString × Option CString)) :
    WholeLines (entriesText es) := by
  induction es with
  | nil => exact wholeLines_nil
  | cons e es ih => exact (wholeLines_entryLine e).append ih

theorem pieces_entriesText (es : List (CString × Option CString)) :
    pieces CONF_ROOM (entriesText es) =
      es.flatMap fun e => pieces CONF_ROOM (entryLine e.1 e.2) := by
  induction es with
  | nil => exact pieces_nil room_pos
  | cons e es ih =>
    rw [List.flatMap_cons, ← ih, ← (wholeLines_entryLine e).pieces_append room_pos
      (wholeLines_entriesText es)]
    rfl

def savedState : LoadState := ⟨some generalName, false⟩

theorem savedState_inGeneral : savedState.InGeneral := ⟨rfl, _, rfl, by decide⟩

theorem run_savedHeader (t : CTime) :
    final confLine .init (pieces CONF_ROOM (headerLine t ++ sectionHeader)) = savedState ∧
      callsOf (output confLine .init (pieces CONF_ROOM (headerLine t ++ sectionHeader))) = [] := by
  let remark := bytesOf "# This configuration file automatically saved on " ++ t.text.bytes
  have hsplit : headerLine t ++ sectionHeader =
      (remark ++ [newline]) ++ (([] ++ [newline]) ++ generalHeader) := by
    simp [headerLine, sectionHeader, generalHeader, remark]
  have hnl : newline ∉ remark := by
    simp only [remark, List.mem_append, t.noNewline, or_false]
    decide
  have hlen : remark.length ≤ CONF_ROOM := by
    have hconst : (bytesOf "# This configuration file automatically saved on ").length = 49 := rfl
    have htext : t.text.bytes.length = 24 := t.length_text
    have hroom : CONF_ROOM = 766 := rfl
    rw [List.length_append, hconst, htext]
    omega
  have hpassed : PassedOver remark := by
    obtain ⟨body, hbody⟩ : ∃ body, remark = [] ++ [35] ++ body := ⟨_, rfl⟩
    rw [hbody] at hnl hlen ⊢
    exact line_passedOver (by simp) (by simp) hnl hlen
  obtain ⟨hfinal, hcalls⟩ := run_of_commentScan (σ := .init) hpassed
  obtain ⟨hfinal', hcalls'⟩ :=
    run_pieces_line (σ := .init) (l := []) List.not_mem_nil (Nat.zero_le _)
  rw [confLine_nil] at hfinal' hcalls'
  rw [hsplit, (wholeLines_snoc remark).pieces_append room_pos
      ((wholeLines_snoc []).append wholeLines_generalHeader),
    (wholeLines_snoc []).pieces_append room_pos wholeLines_generalHeader]
  have hinit : ({ LoadState.init with inComment := false } : LoadState) = .init := rfl
  rw [final_append, final_append, output_append, output_append, hfinal, hinit, hfinal',
    final_generalHeader, callsOf_append, callsOf_append, hcalls, hcalls', output_generalHeader]
  exact ⟨rfl, rfl⟩

theorem callsOf_savedText (t : CTime) (d : Dict) :
    callsOf (loadEvents (some (savedText t d))) =
      callsOf (output confLine savedState (pieces CONF_ROOM (entriesText d.entries))) := by
  have hheader : WholeLines (headerLine t ++ sectionHeader) :=
    (wholeLines_snoc _).append (wholeLines_snoc _)
  obtain ⟨hfinal, hcalls⟩ := run_savedHeader t
  have hreads : reads CONF_ROOM (savedText t d) =
      pieces CONF_ROOM (headerLine t ++ sectionHeader) ++
        (pieces CONF_ROOM (entriesText d.entries) ++ [[]]) := by
    rw [← (wholeLines_entriesText d.entries).reads_eq room_pos, ← hheader.reads_append room_pos]
    rfl
  rw [loadEvents, hreads, output_append, callsOf_append, hcalls, hfinal, output_append,
    output_cons, confLine_nil]
  exact callsOf_below _

theorem confOps_savedText (t : CTime) (d : Dict) :
    confOps (savedText t d) =
      addsOf (output confLine savedState (pieces CONF_ROOM (entriesText d.entries))) := by
  rw [confOps, ← addsOf_callsOf, callsOf_savedText, addsOf_callsOf]

/-- An operation of a saved text comes from a line of its own, or from what `UNDEF` leaves
over. -/
theorem add_savedText {k : CString} {x : Option CString}
    (hes : ∀ e ∈ d.entries, TokenPair e.1 e.2) (hop : .add k x ∈ confOps (savedText t d)) :
    (∃ val, (k, val) ∈ d.entries ∧ IsSetting (confSkip (firstPiece k val)) ∧
      x = readVal k val) ∨ ∃ j ≤ 4, k = undefTail j ∧ x = none := by
  rw [confOps_savedText] at hop
  obtain ⟨k', x', heq, hmem⟩ := mem_addsOf_iff.mp hop
  cases heq
  obtain ⟨pre, buf, post, hsplit, hcall⟩ := mem_output_iff.mp hmem
  have hbuf : buf ∈ pieces CONF_ROOM (entriesText d.entries) := by
    rw [hsplit]
    simp
  rw [pieces_entriesText, List.mem_flatMap] at hbuf
  obtain ⟨⟨key, val⟩, he, hbuf⟩ := hbuf
  rcases (hes _ he).call_cases hbuf hcall with ⟨hset, hk, hx⟩ | ⟨j, hj, hk, hx⟩
  · cases hk
    exact Or.inl ⟨val, he, hset, hx⟩
  · cases hk
    exact Or.inr ⟨j, hj, rfl, hx⟩

/-- When every saved line is a setting, the operations of the text are those of its lines. -/
theorem addsOf_entriesText (hσ : σ.InGeneral) (hes : ∀ e ∈ es, TokenPair e.1 e.2)
    (hset : ∀ e ∈ es, IsSetting (confSkip (firstPiece e.1 e.2))) :
    addsOf (output confLine σ (pieces CONF_ROOM (entriesText es))) =
      es.flatMap fun e => entryOps e.1 e.2 := by
  induction es with
  | nil => rfl
  | cons e es ih =>
    have ih := ih (fun x hx => hes x (List.mem_cons_of_mem _ hx))
      fun x hx => hset x (List.mem_cons_of_mem _ hx)
    obtain ⟨hfinal, hops⟩ :=
      (hes e List.mem_cons_self).run_setting hσ (hset e List.mem_cons_self)
    rw [pieces_entriesText] at ih
    rw [pieces_entriesText, List.flatMap_cons, List.flatMap_cons, output_append, hfinal, ← ih,
      ← hops]
    exact List.filterMap_append

theorem not_nullToken_savedText (hes : ∀ e ∈ d.entries, TokenPair e.1 e.2) :
    .nullToken ∉ loadEvents (some (savedText t d)) := by
  intro h
  have hcalls : .nullToken ∈ callsOf (loadEvents (some (savedText t d))) :=
    List.mem_filter.mpr ⟨h, by simp⟩
  rw [callsOf_savedText] at hcalls
  obtain ⟨pre, buf, post, hsplit, hmem⟩ := mem_output_iff.mp (List.mem_filter.mp hcalls).1
  have hbuf : buf ∈ pieces CONF_ROOM (entriesText d.entries) := by
    rw [hsplit]
    simp
  rw [pieces_entriesText, List.mem_flatMap] at hbuf
  obtain ⟨⟨key, val⟩, he, hbuf⟩ := hbuf
  have hpair := hes _ he
  have hdelims := (nullToken_mem_confLine_iff.mp hmem).2
  have hkey := keyVal_fst_eq_none_iff.mpr hdelims.2
  have hkind := lineKind_of_delims hdelims
  rcases hpair.confSkip_of_mem_pieces hbuf with heq | heq
  · rw [heq, hpair.keyVal_firstPiece] at hkey
    cases hkey
  · rw [heq] at hkey hkind
    exact hpair.leftover_token hkind hkey

end Saved

section RoundTrip

variable {text : List UInt8} {t : CTime} {d : Dict} {key : CString} {val : Option CString}

theorem Loads.entry_tokenPair (h : Loads text d) : ∀ e ∈ d.entries, TokenPair e.1 e.2 :=
  fun _ he => h.tokenPair (h.wf_and_map.1.mem_entries_iff.mp he)

theorem Dict.Survives.readVal_eq (hs : d.Survives) (h : Loads text d)
    (hmap : d.toMap key = some val) : readVal key val = val := by
  cases val with
  | none => exact (readVal_none_iff key).mpr (hs.noValue key hmap).1
  | some w => exact (h.tokenPair hmap).readVal_some_iff.mpr (hs.noReturn key w hmap)

theorem Dict.Survives.confOps_eq (hs : d.Survives) (h : Loads text d) (t : CTime) :
    confOps (savedText t d) = d.entries.flatMap fun e => entryOps e.1 e.2 := by
  rw [confOps_savedText]
  apply addsOf_entriesText savedState_inGeneral h.entry_tokenPair
  rintro ⟨key, val⟩ he
  have hmap := h.wf_and_map.1.mem_entries_iff.mp he
  have hlast : ∀ w ∈ val, w.bytes.getLast? ≠ some 13 := by
    rintro w rfl
    exact hs.noReturn key w hmap
  rw [(h.tokenPair hmap).confSkip_firstPiece hlast]
  exact hs.settings key val hmap

theorem Dict.Survives.add_mem (hs : d.Survives) (h : Loads text d) (t : CTime)
    (hmap : d.toMap key = some val) : .add key val ∈ confOps (savedText t d) := by
  rw [hs.confOps_eq h, List.mem_flatMap]
  refine ⟨(key, val), h.wf_and_map.1.mem_entries_iff.mpr hmap, ?_⟩
  rw [entryOps, hs.readVal_eq h hmap]
  exact List.mem_cons_self

/-- Another operation of such a text can only be what `UNDEF` leaves over, and then `UNDEF` is a
key with a value. -/
theorem Dict.Survives.add_cases (hs : d.Survives) (h : Loads text d) (t : CTime)
    (hop : .add key val ∈ confOps (savedText t d)) :
    d.toMap key = some val ∨ val = none ∧ ∃ w, d.toMap key = some (some w) := by
  rw [hs.confOps_eq h, List.mem_flatMap] at hop
  obtain ⟨⟨k, x⟩, he, hmem⟩ := hop
  have hmap := h.wf_and_map.1.mem_entries_iff.mp he
  cases x with
  | some w =>
    rw [entryOps_some, hs.readVal_eq h hmap, List.mem_singleton] at hmem
    cases hmem
    exact Or.inl hmap
  | none =>
    obtain ⟨hlong, hundef⟩ := hs.noValue k hmap
    rw [entryOps_none hlong, List.mem_pair] at hmem
    rcases hmem with heq | heq
    · cases heq
      exact Or.inl hmap
    · cases heq
      exact Or.inr ⟨rfl, hundef⟩

theorem Dict.Survives.mapOf_eq (hs : d.Survives) (h : Loads text d) (t : CTime) :
    mapOf (confOps (savedText t d)) = d.toMap := by
  funext key
  cases hmap : d.toMap key with
  | none =>
    by_contra hne
    obtain ⟨w, hw⟩ := exists_add_of_mapOf_ne adds_of_confOps hne
    rcases hs.add_cases h t hw with heq | ⟨_, w', heq⟩ <;> rw [hmap] at heq <;> cases heq
  | some val =>
    have hmem := hs.add_mem h t hmap
    have hvals (w : CString) (hw : mapOf (confOps (savedText t d)) key = some (some w)) :
        val = some w := by
      rcases hs.add_cases h t (exists_add_of_mapOf_val adds_of_confOps hw) with heq | ⟨heq, _⟩
      · rw [hmap] at heq
        exact Option.some.inj heq
      · cases heq
    cases hval : mapOf (confOps (savedText t d)) key with
    | none => exact absurd hval (mapOf_ne_none_of_add adds_of_confOps hmem)
    | some x =>
      cases x with
      | some w => rw [hvals w hval]
      | none =>
        cases val with
        | none => rfl
        | some w =>
          obtain ⟨w', hw'⟩ := mapOf_val_of_add adds_of_confOps hmem
          rw [hval] at hw'
          cases hw'

section Reloaded

variable (h : Loads text d) (heq : mapOf (confOps (savedText t d)) = d.toMap)

include h heq

theorem setting_of_reloaded_val {w : CString} (hmap : d.toMap key = some (some w)) :
    IsSetting (confSkip (firstPiece key (some w))) ∧ w.bytes.getLast? ≠ some 13 := by
  have hop := exists_add_of_mapOf_val adds_of_confOps (heq ▸ hmap)
  rcases add_savedText h.entry_tokenPair hop with ⟨x, hx, hset, hread⟩ | ⟨j, _, _, hnone⟩
  · rw [h.wf_and_map.1.mem_entries_iff, hmap] at hx
    cases hx
    exact ⟨hset, (h.tokenPair hmap).readVal_some_iff.mp hread.symm⟩
  · cases hnone

theorem setting_of_reloaded_none (hmap : d.toMap key = some none) :
    IsSetting (confSkip (firstPiece key none)) := by
  have hne : mapOf (confOps (savedText t d)) key ≠ none := by
    rw [heq, hmap]
    exact Option.some_ne_none _
  obtain ⟨w, hop⟩ := exists_add_of_mapOf_ne adds_of_confOps hne
  rcases add_savedText h.entry_tokenPair hop with ⟨x, hx, hset, _⟩ | ⟨j, hj, hk, _⟩
  · rw [h.wf_and_map.1.mem_entries_iff, hmap] at hx
    cases hx
    exact hset
  · rw [hk]
    exact undefTail_setting hj

theorem setting_of_reloaded (hmap : d.toMap key = some val) :
    IsSetting (confSkip (firstPiece key val)) := by
  cases val with
  | none => exact setting_of_reloaded_none h heq hmap
  | some w => exact (setting_of_reloaded_val h heq hmap).1

theorem add_of_reloaded (hmap : d.toMap key = some val) {op : DictOp}
    (hop : op ∈ entryOps key val) : op ∈ confOps (savedText t d) := by
  have hops : confOps (savedText t d) = d.entries.flatMap fun e => entryOps e.1 e.2 := by
    rw [confOps_savedText]
    apply addsOf_entriesText savedState_inGeneral h.entry_tokenPair
    intro e he
    exact setting_of_reloaded h heq (h.wf_and_map.1.mem_entries_iff.mp he)
  rw [hops, List.mem_flatMap]
  exact ⟨(key, val), h.wf_and_map.1.mem_entries_iff.mpr hmap, hop⟩

theorem long_of_reloaded (hmap : d.toMap key = some none) : CONF_ROOM - 1 ≤ key.length := by
  rw [← readVal_none_iff]
  cases hread : readVal key none with
  | none => rfl
  | some w =>
    have hop : .add key (some w) ∈ confOps (savedText t d) := by
      apply add_of_reloaded h heq hmap
      rw [entryOps, hread]
      exact List.mem_cons_self
    obtain ⟨w', hw'⟩ := mapOf_val_of_add adds_of_confOps hop
    rw [heq, hmap] at hw'
    cases hw'

theorem survives_of_mapOf_eq : d.Survives := by
  refine ⟨?_, fun key w hmap => (setting_of_reloaded_val h heq hmap).2, fun key hmap => ?_⟩
  · intro key val hmap
    have hlast : ∀ w ∈ val, w.bytes.getLast? ≠ some 13 := by
      rintro w rfl
      exact (setting_of_reloaded_val h heq hmap).2
    rw [← (h.tokenPair hmap).confSkip_firstPiece hlast]
    exact setting_of_reloaded h heq hmap
  · have hlong := long_of_reloaded h heq hmap
    refine ⟨hlong, ?_⟩
    have hop : .add undef none ∈ confOps (savedText t d) := by
      apply add_of_reloaded h heq hmap
      rw [entryOps_none hlong]
      simp
    have hne := mapOf_ne_none_of_add adds_of_confOps hop
    rw [heq] at hne
    obtain ⟨val, hundef⟩ := Option.ne_none_iff_exists'.mp hne
    cases val with
    | some w => exact ⟨w, hundef⟩
    | none =>
      have hfive : CONF_ROOM - 1 ≤ 5 := long_of_reloaded h heq hundef
      exact absurd hfive (by decide)

end Reloaded

theorem survives_iff (h : Loads text d) (t : CTime) :
    mapOf (confOps (savedText t d)) = d.toMap ↔ d.Survives :=
  ⟨survives_of_mapOf_eq h, fun hs => hs.mapOf_eq h t⟩

theorem length_flatMap_entryOps_le {n : ℕ} {es : List (CString × Option CString)}
    (h : ∀ e ∈ es, (entryOps e.1 e.2).length ≤ n) :
    (es.flatMap fun e => entryOps e.1 e.2).length ≤ n * es.length := by
  induction es with
  | nil => exact Nat.zero_le _
  | cons e es ih =>
    have hhead := h e List.mem_cons_self
    have htail := ih fun x hx => h x (List.mem_cons_of_mem _ hx)
    rw [List.flatMap_cons, List.length_append, List.length_cons, Nat.mul_succ]
    omega

/-- The saved text has at most two operations for an entry, and one if it has a value. -/
theorem Dict.Survives.length_lt (hs : d.Survives) (h : Loads text d) (t : CTime)
    (hsize : (∀ key, d.toMap key ≠ some none) ∨ 2 * d.entries.length < 2 ^ 30) :
    (confOps (savedText t d)).length < 2 ^ 30 := by
  have hwf := h.wf_and_map.1
  rw [hs.confOps_eq h]
  rcases hsize with hvalues | hsmall
  · have hone : ∀ e ∈ d.entries, (entryOps e.1 e.2).length ≤ 1 := by
      rintro ⟨key, val⟩ he
      cases val with
      | none => exact absurd (hwf.mem_entries_iff.mp he) (hvalues key)
      | some w => simp [entryOps]
    have hlive : d.entries.length < 2 ^ 30 := by
      rw [Dict.entries, Dict.length_entriesOf]
      exact Dict.liveCount_lt_of_run adds_of_confOps (loads_iff.mp h).2
    have hle := length_flatMap_entryOps_le hone
    omega
  · have htwo : ∀ e ∈ d.entries, (entryOps e.1 e.2).length ≤ 2 := by
      intro e _
      rw [entryOps]
      split_ifs <;> simp
    exact (length_flatMap_entryOps_le htwo).trans_lt hsmall

/-- A dictionary that survives is loaded again in any case, short of a table that is too large. -/
theorem Dict.Survives.exists_loads (hs : d.Survives) (h : Loads text d) (t : CTime)
    (hsize : (∀ key, d.toMap key ≠ some none) ∨ 2 * d.entries.length < 2 ^ 30) :
    ∃ d', Loads (savedText t d) d' := by
  obtain ⟨d', hrun, _⟩ := Dict.exists_run_of_adds adds_of_confOps (hs.length_lt h t hsize)
  exact ⟨d', loads_iff.mpr ⟨not_nullToken_savedText h.entry_tokenPair, hrun⟩⟩

end RoundTrip

theorem dconfLoad_some_iff {text : List UInt8} {d : Dict} :
    DconfLoad (some text) (some d) ↔ Loads text d :=
  ⟨fun h => by cases h with | loaded run => exact run, .loaded⟩

/-- Let `d` be loaded from any text, and let `dconf_write` write all of it, from a table of less
than `2 ^ 31` slots. A dictionary that is then loaded from the file has the map of `d` exactly when
every saved line is read as a setting and no value ends with a carriage return, and each key without
a value fills the buffer but for one byte at most, with `UNDEF` a key that has a value. Such a
dictionary is loaded again, as long as each key has a value, or the entries are fewer than
`2 ^ 29`. From a larger table the text is never written whole. -/
theorem dconf_roundTrip_iff {text : List UInt8} {d : Dict} (hload : Loads text d)
    {env : WriteEnv} (hopen : env.opens = true) (herrno : env.errno = 0)
    (hall : env.AllWritten d.entries.length) (file : CString) (files : Files) :
    (d.size.toNat < 2 ^ 31 → ∃ files', dconfWrite env d file files = some (files', 1) ∧
      (∀ d', DconfLoad (files' file) (some d') → (d'.toMap = d.toMap ↔ d.Survives)) ∧
      (d.Survives → (∀ key, d.toMap key ≠ some none) ∨ 2 * d.entries.length < 2 ^ 30 →
        ∃ d', DconfLoad (files' file) (some d') ∧ d'.toMap = d.toMap)) ∧
    (¬ d.size.toNat < 2 ^ 31 → ∀ files' rc, dconfWrite env d file files = some (files', rc) →
      files' file ≠ some (savedText env.ctime d)) := by
  constructor
  · intro hsize
    obtain ⟨files', hwrite, hfile⟩ :=
      dconfWrite_of_allWritten file files hload.wf_and_map.1 hsize hopen herrno hall
    refine ⟨files', hwrite, ?_, ?_⟩
    · intro d' hd'
      rw [hfile, dconfLoad_some_iff] at hd'
      rw [hd'.wf_and_map.2]
      exact survives_iff hload env.ctime
    · intro hs hentries
      obtain ⟨d', hd'⟩ := hs.exists_loads hload env.ctime hentries
      rw [hfile]
      refine ⟨d', .loaded hd', ?_⟩
      rw [hd'.wf_and_map.2]
      exact hs.mapOf_eq hload env.ctime
  · intro hsize files' rc hwrite
    exact dconfWrite_of_large file files hload.wf_and_map.1 hsize hopen herrno hall hwrite

def WriteEnv.plain : WriteEnv :=
  ⟨0, true, epoch, fun _ => true, 0, .zero, ⟨.null, none, 0⟩⟩

theorem WriteEnv.plain_allWritten (n : ℕ) : WriteEnv.plain.AllWritten n := ⟨fun _ _ => rfl, rfl⟩

theorem exists_loads_small {text : List UInt8} {es : List LoadEvent} {fuel : ℕ}
    (hes : loadEvents (some text) = es) (htoken : .nullToken ∉ es)
    (heval : (Dict.eval fuel (addsOf es)).map Dict.size = some 8) :
    ∃ d, Loads text d ∧ d.toMap = mapOf (addsOf es) ∧ d.size.toNat < 2 ^ 31 := by
  obtain ⟨d, hrun, hsize⟩ := Dict.exists_run_of_eval heval
  have hops : confOps text = addsOf es := by rw [confOps, hes]
  exact ⟨d, loads_iff.mpr ⟨hes ▸ htoken, hops ▸ hrun⟩, (Dict.run_wf_and_map hrun).2, hsize⟩

/-- `"[general]\nport=80"` -/
theorem dconf_roundTrip_iff_port :
    ∃ d, Loads (joinLines [bytesOf "[general]", bytesOf "port=80"]) d ∧ ∀ file files,
      (d.size.toNat < 2 ^ 31 → ∃ files', dconfWrite .plain d file files = some (files', 1) ∧
        (∀ d', DconfLoad (files' file) (some d') → (d'.toMap = d.toMap ↔ d.Survives)) ∧
        (d.Survives → (∀ key, d.toMap key ≠ some none) ∨ 2 * d.entries.length < 2 ^ 30 →
          ∃ d', DconfLoad (files' file) (some d') ∧ d'.toMap = d.toMap)) ∧
      (¬ d.size.toNat < 2 ^ 31 → ∀ files' rc, dconfWrite .plain d file files = some (files', rc) →
        files' file ≠ some (savedText epoch d)) := by
  have hes : loadEvents (some (joinLines [bytesOf "[general]", bytesOf "port=80"])) =
      [.dictAdd (some (.ofChars "port".toList)) (some (.ofChars "80".toList))] := rfl
  obtain ⟨d, hload, _⟩ := exists_loads hes (by simp) (by decide)
  exact ⟨d, hload, dconf_roundTrip_iff hload rfl rfl (WriteEnv.plain_allWritten _)⟩

/-- After `"[general]\nkey"` the key without a value is saved as `key=UNDEF`. -/
theorem dconf_roundTrip_undef : ¬ ∀ (ls : List (List UInt8)) (d : Dict) (env : WriteEnv)
    (file : CString) (files : Files), (∀ l ∈ ls, newline ∉ l ∧ l.length + 1 < 768) →
    Loads (joinLines ls) d → env.opens = true → env.errno = 0 →
    env.AllWritten d.entries.length →
    ∃ files' d', dconfWrite env d file files = some (files', 1) ∧
      DconfLoad (files' file) (some d') ∧ d'.toMap = d.toMap := by
  intro h
  let key : CString := .ofChars "key".toList
  have hes : loadEvents (some (joinLines [bytesOf "[general]", bytesOf "key"])) =
      [.dictAdd (some key) none] := rfl
  have heval : (Dict.eval 20 (addsOf [.dictAdd (some key) none])).map Dict.size = some 8 := by
    decide +kernel
  obtain ⟨d, hload, hmap, hsize⟩ := exists_loads_small hes (by simp) heval
  have hkey : d.toMap key = some none := by
    rw [hmap]
    exact mapOf_add ..
  obtain ⟨files', d', hwrite, hd', hsame⟩ := h [bytesOf "[general]", bytesOf "key"] d .plain
    (.ofChars ['c']) (fun _ => none) (by decide) hload rfl rfl (WriteEnv.plain_allWritten _)
  obtain ⟨files'', hwrite', hfile⟩ := dconfWrite_of_allWritten (.ofChars ['c']) (fun _ => none)
    hload.wf_and_map.1 hsize (rfl : WriteEnv.plain.opens = true) rfl (WriteEnv.plain_allWritten _)
  rw [hwrite] at hwrite'
  cases hwrite'
  rw [hfile, dconfLoad_some_iff] at hd'
  have hs : d.Survives := (survives_iff hload _).mp (hd'.wf_and_map.2 ▸ hsame)
  have hlong := (hs.noValue key hkey).1
  revert hlong
  decide

end JailFs
