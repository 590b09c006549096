import JailFs.ConfComment
import JailFs.ConfWrite
import Mathlib.Tactic.IntervalCases

/-!
# Reading a saved line back

A saved line `key=value` is read in one round, or in two when it is longer than the buffer holds.
The key and the value that a load can give a dictionary fit into one buffer together; only the
word `UNDEF`, which stands for a missing value, can make a line too long.
-/

namespace JailFs

open Transducer Stdio

/-- A key and a value as the tokens of one round of the loop. -/
structure TokenPair (key : CString) (val : Option CString) : Prop where
  key_ne : key.bytes ≠ []
  key_noDelim : ∀ c ∈ key.bytes, confDelim c = false
  key_le : key.length ≤ CONF_ROOM
  key_full : key.length = CONF_ROOM → trimEnd key = key
  val_ne : ∀ w ∈ val, w.bytes ≠ []
  val_noDelim : ∀ w ∈ val, ∀ c ∈ w.bytes, confDelim c = false
  val_le : ∀ w ∈ val, key.length + 1 + w.length ≤ CONF_ROOM

section Tokens

variable {σ : LoadState} {buf text : List UInt8} {skip key : CString} {val : Option CString}
  {d : Dict}

theorem rdropWhile_dropWhile {α : Type} {p q : α → Bool} {l : List α} (h : l.rdropWhile p = l) :
    (l.dropWhile q).rdropWhile p = l.dropWhile q := by
  rw [List.rdropWhile_eq_self_iff] at h ⊢
  intro hne
  have hl : l ≠ [] := by
    rintro rfl
    exact hne rfl
  have hlast : (l.dropWhile q).getLast hne = l.getLast hl :=
    (List.dropWhile_suffix q).getLast hne
  rw [hlast]
  exact h hl

theorem trimEnd_confSkip : trimEnd (confSkip buf) = confSkip buf :=
  CString.ext (rdropWhile_dropWhile (List.rdropWhile_idempotent isTrimmed _))

theorem length_confSkip_le : (confSkip buf).length ≤ buf.length :=
  ((List.dropWhile_sublist _).trans ((List.rdropWhile_prefix isTrimmed _).sublist.trans
    (List.takeWhile_sublist _))).length_le

theorem tokenPair_of_keyVal (h : keyVal skip = (some key, val)) (hlen : skip.length ≤ CONF_ROOM)
    (htrim : trimEnd skip = skip) : TokenPair key val := by
  unfold keyVal at h
  cases hk : strtok confDelim skip with
  | none => simp [hk] at h
  | some r =>
    obtain ⟨tok, rest⟩ := r
    simp only [hk, Prod.mk.injEq, Option.some.injEq] at h
    obtain ⟨rfl, rfl⟩ := h
    obtain ⟨hle, hsep⟩ := strtok_length hk
    have hval : ∀ w ∈ (strtok confDelim rest).map Prod.fst,
        ∃ rest', strtok confDelim rest = some (w, rest') := by
      intro w hw
      obtain ⟨⟨w', rest'⟩, hr, rfl⟩ := Option.map_eq_some_iff.mp hw
      exact ⟨rest', hr⟩
    refine ⟨strtok_token_ne_nil hk, strtok_token_no_delim hk, by omega, ?_, ?_, ?_, ?_⟩
    · intro hfull
      rw [strtok_eq_self hk (by omega), htrim]
    · intro w hw
      obtain ⟨rest', hr⟩ := hval w hw
      exact strtok_token_ne_nil hr
    · intro w hw
      obtain ⟨rest', hr⟩ := hval w hw
      exact strtok_token_no_delim hr
    · intro w hw
      obtain ⟨rest', hr⟩ := hval w hw
      have hwle := (strtok_length hr).1
      have hne : rest.bytes ≠ [] := by
        intro hnil
        have hnone : strtok confDelim rest = none := strtok_eq_none_iff.mpr (by simp [hnil])
        rw [hnone] at hr
        cases hr
      have hfit := hsep hne
      omega

theorem Loads.tokenPair (h : Loads text d) (hmap : d.toMap key = some val) :
    TokenPair key val := by
  have hadds : ∃ val', .add key val' ∈ confOps text ∧ (val = none ∨ val' = val) := by
    rw [h.wf_and_map.2] at hmap
    cases val with
    | none =>
      have hne : mapOf (confOps text) key ≠ none := by
        rw [hmap]
        exact Option.some_ne_none _
      obtain ⟨w, hmem⟩ := exists_add_of_mapOf_ne adds_of_confOps hne
      exact ⟨w, hmem, Or.inl rfl⟩
    | some w => exact ⟨_, exists_add_of_mapOf_val adds_of_confOps hmap, Or.inr rfl⟩
  obtain ⟨val', hadd, hval⟩ := hadds
  obtain ⟨k, w, hop, hmem⟩ := mem_addsOf_iff.mp hadd
  cases hop
  obtain ⟨pre, buf, post, hsplit, hcall⟩ := mem_output_iff.mp hmem
  have hbuf : buf.length ≤ CONF_ROOM :=
    length_le_of_mem_reads (hsplit ▸ List.mem_append_right _ List.mem_cons_self)
  have hpair := tokenPair_of_keyVal (setting_of_dictAdd hcall).2
    (length_confSkip_le.trans hbuf) trimEnd_confSkip
  rcases hval with rfl | rfl
  · exact { hpair with
      val_ne := by simp
      val_noDelim := by simp
      val_le := by simp }
  · exact hpair

end Tokens

/-- A saved line without its newline. -/
def entryBody (key : CString) (val : Option CString) : List UInt8 :=
  key.bytes ++ [61] ++ (val.getD undef).bytes

/-- What the first round reads of a saved line. -/
def firstPiece (key : CString) (val : Option CString) : List UInt8 :=
  (entryBody key val).take CONF_ROOM

/-- What is left for a second round. -/
def leftover (key : CString) (val : Option CString) : List UInt8 :=
  (entryBody key val).drop CONF_ROOM

/-- The value that the first round finds. -/
def readVal (key : CString) (val : Option CString) : Option CString :=
  (strtok confDelim (trimEnd ((val.getD undef).take (CONF_ROOM - 1 - key.length)))).map Prod.fst

section Entry

variable {σ : LoadState} {key : CString} {val : Option CString}

theorem entryLine_eq : entryLine key val = entryBody key val ++ [newline] := rfl

theorem TokenPair.newline_not_mem (h : TokenPair key val) : newline ∉ entryBody key val := by
  have hundef : newline ∉ undef.bytes := by decide
  have hkey : newline ∉ key.bytes := by
    intro hmem
    have := h.key_noDelim _ hmem
    cases this
  have hval : newline ∉ (val.getD undef).bytes := by
    cases val with
    | none => exact hundef
    | some w =>
      intro hmem
      have := h.val_noDelim w rfl _ hmem
      cases this
  have h61 : newline ≠ 61 := by decide
  simp [entryBody, hkey, hval, h61]

theorem TokenPair.leftover_eq (h : TokenPair key val) :
    leftover key val = (61 :: (val.getD undef).bytes).drop (CONF_ROOM - key.length) := by
  have hle := h.key_le
  rw [leftover, entryBody, List.append_assoc, List.drop_append,
    List.drop_eq_nil_of_le hle, List.nil_append]
  rfl

theorem TokenPair.leftover_some {w : CString} (h : TokenPair key (some w)) :
    leftover key (some w) = [] := by
  have hle := h.val_le w rfl
  rw [h.leftover_eq]
  apply List.drop_eq_nil_of_le
  change w.length + 1 ≤ _
  omega

theorem TokenPair.length_leftover_lt (h : TokenPair key val) :
    (leftover key val).length < CONF_ROOM := by
  cases val with
  | none =>
    have hundef : (undef.bytes).length = 5 := rfl
    rw [h.leftover_eq, List.length_drop, List.length_cons, Option.getD_none, hundef]
    have hroom : CONF_ROOM = 766 := rfl
    omega
  | some w =>
    rw [h.leftover_some]
    exact room_pos

theorem TokenPair.run_entry (h : TokenPair key val) :
    final confLine σ (pieces CONF_ROOM (entryLine key val)) =
        (confLine (confLine σ (firstPiece key val)).1 (leftover key val)).1 ∧
      callsOf (output confLine σ (pieces CONF_ROOM (entryLine key val))) =
        callsOf (confLine σ (firstPiece key val)).2 ++
          callsOf (confLine (confLine σ (firstPiece key val)).1 (leftover key val)).2 := by
  have hnl := h.newline_not_mem
  have hlt := h.length_leftover_lt
  rw [entryLine_eq]
  by_cases hlong : CONF_ROOM < (entryBody key val).length
  · rw [leftover, List.length_drop] at hlt
    rw [pieces_long_line hnl hlong hlt, final_cons, final_cons, output_cons, output_cons,
      confLine_line, callsOf_append, callsOf_append]
    exact ⟨rfl, congrArg _ (List.append_nil _)⟩
  · rw [Nat.not_lt] at hlong
    have hfirst : firstPiece key val = entryBody key val := List.take_of_length_le hlong
    have hrest : leftover key val = [] := List.drop_eq_nil_of_le hlong
    obtain ⟨hfinal, hcalls⟩ := run_pieces_line (σ := σ) hnl hlong
    rw [hfinal, hcalls, hfirst, hrest, confLine_nil]
    exact ⟨rfl, (List.append_nil _).symm⟩

theorem TokenPair.confSkip_of_mem_pieces (h : TokenPair key val) {buf : List UInt8}
    (hbuf : buf ∈ pieces CONF_ROOM (entryLine key val)) :
    confSkip buf = confSkip (firstPiece key val) ∨ confSkip buf = confSkip (leftover key val) := by
  have hsnoc (l : List UInt8) : confSkip (l ++ [newline]) = confSkip l := by
    unfold confSkip
    rw [trimEnd_ofBuffer_snoc rfl]
  have hnl := h.newline_not_mem
  have hlt := h.length_leftover_lt
  rw [entryLine_eq] at hbuf
  by_cases hlong : CONF_ROOM < (entryBody key val).length
  · rw [leftover, List.length_drop] at hlt
    rw [pieces_long_line hnl hlong hlt, List.mem_pair] at hbuf
    rcases hbuf with rfl | rfl
    · exact Or.inl rfl
    · exact Or.inr (hsnoc _)
  · rw [Nat.not_lt] at hlong
    have hfirst : firstPiece key val = entryBody key val := List.take_of_length_le hlong
    have hrest : leftover key val = [] := List.drop_eq_nil_of_le hlong
    rcases Nat.lt_or_eq_of_le hlong with hshort | hfull
    · rw [pieces_line hnl hshort, List.mem_singleton] at hbuf
      rw [hbuf, hfirst]
      exact Or.inl (hsnoc _)
    · rw [pieces_full_line room_pos hnl hfull, List.mem_pair] at hbuf
      rcases hbuf with rfl | rfl
      · rw [hfirst]
        exact Or.inl rfl
      · rw [hrest]
        exact Or.inr (hsnoc [])

theorem TokenPair.dropBlanks (h : TokenPair key val) (l : List UInt8) :
    (key.bytes ++ l).dropWhile (· = 32) = key.bytes ++ l := by
  obtain ⟨c, rest, hc⟩ := List.exists_cons_of_ne_nil h.key_ne
  have hblank : c ≠ 32 := by
    rintro rfl
    have := h.key_noDelim 32 (by rw [hc]; exact List.mem_cons_self)
    cases this
  rw [hc, List.cons_append, List.dropWhile_cons_of_neg (by simpa using hblank)]

theorem firstPiece_of_full (hfull : key.length = CONF_ROOM) : firstPiece key val = key.bytes := by
  rw [firstPiece, entryBody, List.append_assoc, ← hfull]
  exact List.take_left

theorem TokenPair.firstPiece_of_ne (h : TokenPair key val) (hne : key.length ≠ CONF_ROOM) :
    firstPiece key val = key.bytes ++ [61] ++
      ((val.getD undef).take (CONF_ROOM - 1 - key.length)).bytes := by
  have hle := h.key_le
  have hlength := key.length_bytes
  have hroom : CONF_ROOM = 766 := rfl
  rw [firstPiece, entryBody, List.take_append, List.length_append, List.length_singleton,
    List.take_of_length_le (by rw [List.length_append, List.length_singleton]; omega),
    CString.bytes_take, show CONF_ROOM - (key.bytes.length + 1) =
      CONF_ROOM - 1 - key.length by omega]

/-- The tokens of the first piece: the key, and what the round sees of the value. -/
theorem TokenPair.keyVal_firstPiece (h : TokenPair key val) :
    keyVal (confSkip (firstPiece key val)) = (some key, readVal key val) := by
  by_cases hfull : key.length = CONF_ROOM
  · have hskip : confSkip key.bytes = key := by
      apply CString.ext
      change ((CString.ofBuffer key.bytes).bytes.rdropWhile isTrimmed).dropWhile (· = 32) = _
      rw [bytes_ofBuffer key.noNul]
      change (trimEnd key).bytes.dropWhile _ = _
      have hdrop := h.dropBlanks []
      rw [List.append_nil] at hdrop
      rw [h.key_full hfull, hdrop]
    have hnone : readVal key val = none := by
      have hzero : CONF_ROOM - 1 - key.length = 0 := by omega
      rw [readVal, hzero, Option.map_eq_none_iff, strtok_eq_none_iff]
      intro c hc
      exact absurd ((List.rdropWhile_prefix isTrimmed _).subset hc) List.not_mem_nil
    obtain ⟨rest, hrest, hbytes⟩ :=
      strtok_of_start (List.append_nil key.bytes).symm h.key_ne h.key_noDelim (by simp)
    have hend : strtok confDelim rest = none := strtok_eq_none_iff.mpr (by simp [hbytes])
    rw [firstPiece_of_full hfull, hskip, hnone, keyVal_of_strtok hrest, hend]
    rfl
  · exact keyVal_setting h.key_ne h.key_noDelim (Or.inl (h.firstPiece_of_ne hfull))

theorem TokenPair.readVal_some_iff {w : CString} (h : TokenPair key (some w)) :
    readVal key (some w) = some w ↔ w.bytes.getLast? ≠ some 13 := by
  have hle := h.val_le w rfl
  have hdelim := h.val_noDelim w rfl
  have hnl : newline ∉ w.bytes := by
    intro hmem
    have := hdelim _ hmem
    cases this
  have htake : w.take (CONF_ROOM - 1 - key.length) = w :=
    CString.take_of_length_le (by omega)
  have hplain : ∀ c ∈ w.bytes, c ≠ 32 ∧ c ≠ 61 := by
    intro c hc
    have hd := hdelim c hc
    constructor
    · rintro rfl
      cases hd
    · rintro rfl
      cases hd
  have hiff : ((strtok confDelim (trimEnd w)).map Prod.fst).or none = some w ↔
      ReadWhole w ∨ (∀ c ∈ w.bytes, c = 13) ∧ none = some w :=
    value_iff (h.val_ne w rfl) hnl (by simp)
  rw [Option.or_none] at hiff
  rw [readVal, Option.getD_some, htake, hiff]
  constructor
  · rintro (hwhole | ⟨_, hnone⟩)
    · exact hwhole.2
    · cases hnone
  · exact fun hlast => Or.inl ⟨hplain, hlast⟩

theorem readVal_none_iff (key : CString) :
    readVal key none = none ↔ CONF_ROOM - 1 ≤ key.length := by
  have htable (n : ℕ) : (strtok confDelim (trimEnd (undef.take n))).map Prod.fst = none ↔
      n = 0 := by
    rcases Nat.lt_or_ge n 5 with hlt | hge
    · interval_cases n <;> decide
    · have htake : undef.take n = undef := CString.take_of_length_le hge
      rw [htake]
      exact iff_of_false (by decide) (by omega)
  rw [readVal, Option.getD_none, htable]
  omega

/-- What a second round sees after `j` characters of `=UNDEF`. -/
def restPiece (j : ℕ) : List UInt8 := (61 :: undef.bytes).drop j

/-- The key that it finds there. -/
def undefTail (j : ℕ) : CString := .ofChars ("UNDEF".toList.drop (j - 1))

instance (skip : CString) : Decidable (IsSetting skip) :=
  decidable_of_iff (lineKind skip = .text ∧
      ¬ (skip.startsWith [91] ∧ skip.bytes.getLast? = some 93) ∧
      strncaseEq skip endMark 4 = false)
    ⟨fun h => ⟨h.1, h.2.1, h.2.2⟩, fun h => ⟨h.kind, h.notHeader, h.notEnd⟩⟩

theorem restPiece_setting {j : ℕ} (hj : j ≤ 4) : IsSetting (confSkip (restPiece j)) ∧
    keyVal (confSkip (restPiece j)) = (some (undefTail j), none) := by
  interval_cases j <;> decide

theorem undefTail_eq_undef {j : ℕ} (hj : j ≤ 1) : undefTail j = undef := by
  interval_cases j <;> rfl

theorem undefTail_setting {j : ℕ} (hj : j ≤ 4) :
    IsSetting (confSkip (firstPiece (undefTail j) none)) := by
  interval_cases j <;> decide

theorem restPiece_short {j : ℕ} (hj : 5 ≤ j) : lineKind (confSkip (restPiece j)) = .short := by
  rcases Nat.lt_or_ge j 6 with hlt | hge
  · have h5 : j = 5 := by omega
    subst h5
    decide
  · have hnil : restPiece j = [] := List.drop_eq_nil_of_le hge
    rw [hnil]
    decide

theorem TokenPair.leftover_token (h : TokenPair key val)
    (hkind : lineKind (confSkip (leftover key val)) = .text) :
    (keyVal (confSkip (leftover key val))).1 ≠ none := by
  cases val with
  | some w =>
    rw [h.leftover_some] at hkind
    exact absurd hkind (by decide)
  | none =>
    have hpiece : leftover key none = restPiece (CONF_ROOM - key.length) := h.leftover_eq
    rw [hpiece] at hkind ⊢
    by_cases hj : CONF_ROOM - key.length ≤ 4
    · rw [(restPiece_setting hj).2]
      exact Option.some_ne_none _
    · have hshort := restPiece_short (j := CONF_ROOM - key.length) (by omega)
      rw [hkind] at hshort
      cases hshort

theorem confLine_of_short {buf : List UInt8} (h : lineKind (confSkip buf) = .short) :
    (confLine σ buf).1 = σ ∧ addsOf (confLine σ buf).2 = [] := by
  by_cases htrim : OnlyTrimmed buf
  · rw [confLine_of_onlyTrimmed htrim]
    exact ⟨rfl, rfl⟩
  · rw [confLine_eq htrim, h]
    exact ⟨rfl, rfl⟩

/-- The operations that a saved line describes in a general section. -/
def entryOps (key : CString) (val : Option CString) : List DictOp :=
  .add key (readVal key val) ::
    if val = none ∧ CONF_ROOM - key.length ≤ 4 then
      [.add (undefTail (CONF_ROOM - key.length)) none]
    else []

theorem entryOps_some (key w : CString) :
    entryOps key (some w) = [.add key (readVal key (some w))] := by
  simp [entryOps]

/-- The missing value of a long key stays missing, and `UNDEF` becomes a key. -/
theorem entryOps_none (hlong : CONF_ROOM - 1 ≤ key.length) :
    entryOps key none = [.add key none, .add undef none] := by
  rw [entryOps, if_pos ⟨rfl, by omega⟩, (readVal_none_iff key).mpr hlong,
    undefTail_eq_undef (by omega)]

theorem TokenPair.run_setting (h : TokenPair key val) (hσ : σ.InGeneral)
    (hset : IsSetting (confSkip (firstPiece key val))) :
    final confLine σ (pieces CONF_ROOM (entryLine key val)) = σ ∧
      addsOf (output confLine σ (pieces CONF_ROOM (entryLine key val))) = entryOps key val := by
  obtain ⟨hfinal, hcalls⟩ := h.run_entry (σ := σ)
  have hfirst := confLine_of_setting hσ hset
  rw [h.keyVal_firstPiece] at hfirst
  rw [hfirst] at hfinal hcalls
  have hrest : (confLine σ (leftover key val)).1 = σ ∧
      addsOf (confLine σ (leftover key val)).2 =
        if val = none ∧ CONF_ROOM - key.length ≤ 4 then
          [.add (undefTail (CONF_ROOM - key.length)) none]
        else [] := by
    cases val with
    | some w =>
      rw [h.leftover_some, confLine_nil]
      exact ⟨rfl, by simp [addsOf, LoadEvent.toOp]⟩
    | none =>
      have hpiece : leftover key none = restPiece (CONF_ROOM - key.length) := h.leftover_eq
      rw [hpiece]
      by_cases hj : CONF_ROOM - key.length ≤ 4
      · obtain ⟨hset', hkv⟩ := restPiece_setting hj
        rw [confLine_of_setting hσ hset', hkv, if_pos ⟨rfl, hj⟩]
        exact ⟨rfl, rfl⟩
      · rw [if_neg fun hboth => hj hboth.2]
        exact confLine_of_short (restPiece_short (by omega))
  refine ⟨hfinal.trans hrest.1, ?_⟩
  rw [← addsOf_callsOf, hcalls, ← callsOf_append, addsOf_callsOf, entryOps, ← hrest.2]
  rfl

/-- A call that reading a saved line makes, in whatever state: it is the line's own, or that of
what `UNDEF` leaves over. -/
theorem TokenPair.call_cases (h : TokenPair key val) {buf : List UInt8} {x y : Option CString}
    (hbuf : buf ∈ pieces CONF_ROOM (entryLine key val))
    (hcall : .dictAdd x y ∈ (confLine σ buf).2) :
    (IsSetting (confSkip (firstPiece key val)) ∧ x = some key ∧ y = readVal key val) ∨
      ∃ j ≤ 4, x = some (undefTail j) ∧ y = none := by
  obtain ⟨hset, hkv⟩ := setting_of_dictAdd hcall
  rcases h.confSkip_of_mem_pieces hbuf with heq | heq
  · rw [heq] at hset hkv
    rw [h.keyVal_firstPiece] at hkv
    cases hkv
    exact Or.inl ⟨hset, rfl, rfl⟩
  · right
    rw [heq] at hset hkv
    cases val with
    | some w =>
      rw [h.leftover_some] at hset
      exact absurd hset (by decide)
    | none =>
      have hpiece : leftover key none = restPiece (CONF_ROOM - key.length) := h.leftover_eq
      rw [hpiece] at hset hkv
      by_cases hj : CONF_ROOM - key.length ≤ 4
      · rw [(restPiece_setting hj).2] at hkv
        cases hkv
        exact ⟨_, hj, rfl, rfl⟩
      · have hshort := restPiece_short (j := CONF_ROOM - key.length) (by omega)
        rw [hset.kind] at hshort
        cases hshort

end Entry

end JailFs
