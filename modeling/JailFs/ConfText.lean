import JailFs.ConfFaults
import JailFs.DictFilled

/-!
# What a loaded dictionary holds

The dictionary that `dconf_load` returns is the one that its calls of `dict_add` describe, and on
a text whose lines are shorter than the buffer these calls can be read off the lines: the rounds
that find only a newline, or nothing, change nothing.
-/

namespace JailFs

open Transducer Stdio

/-- The operation on the dictionary, for a key that is not `NULL`. -/
def LoadEvent.toOp : LoadEvent → Option DictOp
  | .dictAdd (some key) val => some (.add key val)
  | _ => none

def addsOf (es : List LoadEvent) : List DictOp := es.filterMap LoadEvent.toOp

/-- The operations on the dictionary that a text describes. -/
def confOps (text : List UInt8) : List DictOp := addsOf (loadEvents (some text))

section Replay

variable {d d' : Dict} {es : List LoadEvent} {e : LoadEvent} {text : List UInt8}

/-- An event acts on the dictionary as its operation does, and a `NULL` token ends the run. -/
theorem LoadEvent.step_iff (hstream : e ≠ .nullStream) : e.Step d d' ↔ e ≠ .nullToken ∧
    match e.toOp with
    | some op => op.Step d d'
    | none => d' = d := by
  cases e with
  | belowBuffer =>
    constructor
    · rintro ⟨⟩
      exact ⟨by simp, rfl⟩
    · rintro ⟨_, rfl⟩
      exact .belowBuffer
  | nullToken =>
    constructor
    · rintro ⟨⟩
    · rintro ⟨h, _⟩
      exact absurd rfl h
  | nullStream => exact absurd rfl hstream
  | dictAdd key val =>
    refine ⟨fun h => ⟨by simp, ?_⟩, fun h => .dictAdd ?_⟩
    · cases h with | dictAdd h =>
      obtain ⟨env, fuel, rc, noFail, run⟩ := h
      cases key with
      | none =>
        cases fuel with
        | zero => cases run
        | succ fuel => exact (congrArg Prod.fst (Option.some.inj run)).symm
      | some key => exact ⟨env, fuel, noFail, by simp [DictOp.apply, run]⟩
    · cases key with
      | none =>
        obtain ⟨_, rfl⟩ := h
        exact ⟨DictEnv.plain, 1, -1, DictEnv.plain_noFail, rfl⟩
      | some key =>
        obtain ⟨_, env, fuel, noFail, happly⟩ := h
        obtain ⟨⟨d₁, rc⟩, run, rfl⟩ := Option.map_eq_some_iff.mp happly
        exact ⟨env, fuel, rc, noFail, run⟩

theorem addsOf_snoc (es : List LoadEvent) (e : LoadEvent) :
    addsOf (es ++ [e]) = addsOf es ++ e.toOp.toList := by
  rw [addsOf, List.filterMap_append]
  cases he : e.toOp <;> simp [addsOf, he]

theorem exec_events_iff (hstream : .nullStream ∉ es) : Exec LoadEvent.Step d es d' ↔
    .nullToken ∉ es ∧ Exec DictOp.Step d (addsOf es) d' := by
  induction es using List.reverseRecOn generalizing d' with
  | nil => simp [addsOf, Exec.nil_iff]
  | append_singleton es e ih =>
    simp only [List.mem_append, List.mem_singleton, not_or] at hstream ⊢
    rw [Exec.snoc_iff, addsOf_snoc]
    simp only [ih hstream.1, LoadEvent.step_iff (Ne.symm hstream.2)]
    cases e.toOp with
    | none =>
      simp only [Option.toList_none, List.append_nil]
      constructor
      · rintro ⟨t, ⟨htoken, hrun⟩, hne, rfl⟩
        exact ⟨⟨htoken, Ne.symm hne⟩, hrun⟩
      · rintro ⟨⟨htoken, hne⟩, hrun⟩
        exact ⟨d', ⟨htoken, hrun⟩, Ne.symm hne, rfl⟩
    | some op =>
      simp only [Option.toList_some, Exec.snoc_iff]
      constructor
      · rintro ⟨t, ⟨htoken, hrun⟩, hne, hstep⟩
        exact ⟨⟨htoken, Ne.symm hne⟩, t, hrun, hstep⟩
      · rintro ⟨⟨htoken, hne⟩, t, hrun, hstep⟩
        exact ⟨t, ⟨htoken, hrun⟩, Ne.symm hne, hstep⟩

theorem not_nullStream_mem_loadEvents : .nullStream ∉ loadEvents (some text) := by
  intro h
  obtain ⟨pre, buf, post, _, hmem⟩ := mem_output_iff.mp h
  exact not_nullStream_mem_confLine hmem

theorem loads_iff :
    Loads text d ↔ .nullToken ∉ loadEvents (some text) ∧ Dict.Run (confOps text) d :=
  exec_events_iff not_nullStream_mem_loadEvents

/-- A loaded dictionary holds the map that the text describes. -/
theorem Loads.wf_and_map (h : Loads text d) : d.WF ∧ d.toMap = mapOf (confOps text) :=
  Dict.run_wf_and_map (loads_iff.mp h).2

end Replay

section Adds

variable {ops : List DictOp} {key val : CString}

theorem mem_addsOf_iff {es : List LoadEvent} {op : DictOp} :
    op ∈ addsOf es ↔ ∃ key val, op = .add key val ∧ .dictAdd (some key) val ∈ es := by
  rw [addsOf, List.mem_filterMap]
  constructor
  · rintro ⟨e, he, hop⟩
    unfold LoadEvent.toOp at hop
    split at hop
    · cases hop
      exact ⟨_, _, rfl, he⟩
    · cases hop
  · rintro ⟨key, val, rfl, he⟩
    exact ⟨_, he, rfl⟩

theorem adds_of_addsOf {es : List LoadEvent} : ∀ op ∈ addsOf es, ∃ k w, op = .add k w := by
  intro op hop
  obtain ⟨k, w, rfl, _⟩ := mem_addsOf_iff.mp hop
  exact ⟨k, w, rfl⟩

theorem adds_of_confOps {text : List UInt8} : ∀ op ∈ confOps text, ∃ k w, op = .add k w :=
  adds_of_addsOf

theorem mapOf_append (ops ops' : List DictOp) :
    mapOf (ops ++ ops') = ops'.foldl DictOp.effect (mapOf ops) := List.foldl_append ..

/-- Adds that give `key` no new value leave the value that it has. -/
theorem foldl_effect_keep {v : Option CString} (hops : ∀ op ∈ ops, ∃ k w, op = .add k w)
    (hkeep : ∀ w, .add key (some w) ∉ ops) {m : StringMap} (hm : m key = some v) :
    ops.foldl DictOp.effect m key = some v := by
  induction ops generalizing m with
  | nil => exact hm
  | cons op ops ih =>
    rw [List.foldl_cons]
    apply ih (fun op h => hops op (List.mem_cons_of_mem _ h))
      (fun w h => hkeep w (List.mem_cons_of_mem _ h))
    obtain ⟨k, w, rfl⟩ := hops op List.mem_cons_self
    by_cases hk : key = k
    · subst hk
      cases w with
      | none => simp [DictOp.effect, hm]
      | some w => exact absurd List.mem_cons_self (hkeep w)
    · rw [DictOp.effect, Function.update_of_ne hk, hm]

theorem exists_add_of_mapOf_val (hops : ∀ op ∈ ops, ∃ k w, op = .add k w)
    (h : mapOf ops key = some (some val)) : .add key (some val) ∈ ops := by
  induction ops using List.reverseRecOn with
  | nil => cases h
  | append_singleton ops op ih =>
    obtain ⟨k, w, rfl⟩ := hops _ (List.mem_append_right _ List.mem_cons_self)
    have hprev : mapOf ops key = some (some val) → .add key (some val) ∈ ops :=
      ih fun op h => hops op (List.mem_append_left _ h)
    rw [mapOf_snoc, DictOp.effect] at h
    by_cases hk : key = k
    · subst hk
      rw [Function.update_self, Option.some.injEq] at h
      cases w with
      | none =>
        rw [Option.none_or, Option.join_eq_some_iff] at h
        exact List.mem_append_left _ (hprev h)
      | some w =>
        cases h
        exact List.mem_append_right _ List.mem_cons_self
    · rw [Function.update_of_ne hk] at h
      exact List.mem_append_left _ (hprev h)

theorem exists_add_of_mapOf_ne (hops : ∀ op ∈ ops, ∃ k w, op = .add k w)
    (h : mapOf ops key ≠ none) : ∃ w, .add key w ∈ ops := by
  obtain ⟨pre, op, post, rfl, hadd, _⟩ := exists_add_of_mapOf h
  have hmem : op ∈ pre ++ op :: post := List.mem_append_right _ List.mem_cons_self
  obtain ⟨k, w, rfl⟩ := hops op hmem
  have hk : k = key := by simpa [DictOp.addsKey] using hadd
  exact ⟨w, hk ▸ hmem⟩

theorem mapOf_ne_none_of_add (hops : ∀ op ∈ ops, ∃ k w, op = .add k w) {val : Option CString}
    (h : .add key val ∈ ops) : mapOf ops key ≠ none := by
  induction ops using List.reverseRecOn with
  | nil => cases h
  | append_singleton ops op ih =>
    obtain ⟨k, w, rfl⟩ := hops _ (List.mem_append_right _ List.mem_cons_self)
    rw [mapOf_snoc, DictOp.effect]
    by_cases hk : key = k
    · subst hk
      simp
    · rw [Function.update_of_ne hk]
      apply ih fun op h => hops op (List.mem_append_left _ h)
      rcases List.mem_append.mp h with h | h
      · exact h
      · cases List.mem_singleton.mp h
        exact absurd rfl hk

theorem mapOf_val_of_add (hops : ∀ op ∈ ops, ∃ k w, op = .add k w)
    (h : .add key (some val) ∈ ops) : ∃ w, mapOf ops key = some (some w) := by
  induction ops using List.reverseRecOn with
  | nil => cases h
  | append_singleton ops op ih =>
    obtain ⟨k, w, rfl⟩ := hops _ (List.mem_append_right _ List.mem_cons_self)
    have hprev : .add key (some val) ∈ ops → ∃ w, mapOf ops key = some (some w) :=
      ih fun op h => hops op (List.mem_append_left _ h)
    rw [List.mem_append, List.mem_singleton] at h
    rw [mapOf_snoc, DictOp.effect]
    by_cases hk : key = k
    · subst hk
      rw [Function.update_self]
      cases w with
      | none =>
        obtain ⟨w, hw⟩ := hprev (h.resolve_right fun heq => by cases heq)
        exact ⟨w, by rw [hw]; rfl⟩
      | some w => exact ⟨w, rfl⟩
    · rw [Function.update_of_ne hk]
      refine hprev (h.resolve_right fun heq => hk ?_)
      cases heq
      rfl

/-- A loaded dictionary and its map, for a text whose calls are known. -/
theorem exists_loads {text : List UInt8} {es : List LoadEvent} (hes : loadEvents (some text) = es)
    (htoken : .nullToken ∉ es) (hlen : (addsOf es).length < 2 ^ 30) :
    ∃ d, Loads text d ∧ d.toMap = mapOf (addsOf es) := by
  have hops : confOps text = addsOf es := by rw [confOps, hes]
  obtain ⟨d, hrun, _⟩ := Dict.exists_run_of_adds adds_of_addsOf hlen
  have hload : Loads text d := loads_iff.mpr ⟨hes ▸ htoken, hops ▸ hrun⟩
  exact ⟨d, hload, hops ▸ hload.wf_and_map.2⟩

end Adds

section Lines

variable {σ : LoadState} {a b buf l : List UInt8} {ls : List (List UInt8)}

theorem confLine_congr (h : trimEnd (.ofBuffer a) = trimEnd (.ofBuffer b)) :
    confLine σ a = confLine σ b := by
  unfold confLine confSkip
  rw [h]

theorem trimEnd_ofBuffer_snoc {c : UInt8} (hc : isTrimmed c) :
    trimEnd (.ofBuffer (l ++ [c])) = trimEnd (.ofBuffer l) := by
  apply CString.ext
  change ((l ++ [c]).takeWhile (· ≠ 0)).rdropWhile isTrimmed =
    (l.takeWhile (· ≠ 0)).rdropWhile isTrimmed
  rw [List.takeWhile_append]
  split_ifs with hl
  · have hne : c ≠ 0 := by
      rintro rfl
      cases hc
    have hall : l.takeWhile (· ≠ 0) = l := (List.takeWhile_prefix _).eq_of_length hl
    have hcons : [c].takeWhile (· ≠ 0) = [c] := by simp [hne]
    rw [hcons, List.rdropWhile_concat_pos _ _ _ hc, hall]
  · rfl

theorem confLine_line : confLine σ (l ++ [newline]) = confLine σ l :=
  confLine_congr (trimEnd_ofBuffer_snoc rfl)

theorem confLine_nil : confLine σ [] = (σ, [.belowBuffer]) :=
  confLine_of_onlyTrimmed fun _ h => absurd h List.not_mem_nil

theorem confLine_newline : confLine σ [newline] = (σ, [.belowBuffer]) :=
  confLine_line.trans confLine_nil

/-- The events that are calls. -/
def callsOf (es : List LoadEvent) : List LoadEvent := es.filter (· ≠ .belowBuffer)

theorem callsOf_append (es es' : List LoadEvent) :
    callsOf (es ++ es') = callsOf es ++ callsOf es' := List.filter_append ..

theorem addsOf_callsOf (es : List LoadEvent) : addsOf (callsOf es) = addsOf es := by
  rw [callsOf, addsOf, List.filterMap_filter]
  apply List.filterMap_congr
  intro e _
  cases e <;> rfl

theorem callsOf_below (es : List LoadEvent) : callsOf (es ++ [.belowBuffer]) = callsOf es := by
  rw [callsOf_append]
  exact List.append_nil _

/-- The rounds for one line that fits into the buffer act as the line does. -/
theorem run_pieces_line (hl : newline ∉ l) (hlen : l.length ≤ CONF_ROOM) :
    final confLine σ (pieces CONF_ROOM (l ++ [newline])) = (confLine σ l).1 ∧
      callsOf (output confLine σ (pieces CONF_ROOM (l ++ [newline]))) =
        callsOf (confLine σ l).2 := by
  rcases Nat.lt_or_eq_of_le hlen with hlt | heq
  · rw [pieces_line hl hlt, final_cons, output_cons, confLine_line]
    exact ⟨rfl, congrArg callsOf (List.append_nil _)⟩
  · rw [pieces_full_line (by decide) hl heq, final_cons, output_cons, final_cons, output_cons,
      confLine_newline]
    exact ⟨rfl, callsOf_below _⟩

/-- The rounds that read a text act as its lines do, when the lines fit into the buffer. -/
theorem run_joinLines (hls : ∀ l ∈ ls, newline ∉ l ∧ l.length ≤ CONF_ROOM) :
    final confLine σ (reads CONF_ROOM (joinLines ls)) = final confLine σ ls ∧
      callsOf (output confLine σ (reads CONF_ROOM (joinLines ls))) =
        callsOf (output confLine σ ls) := by
  have hroom : 0 < CONF_ROOM := by decide
  induction ls using joinLines.induct generalizing σ with
  | case1 =>
    rw [joinLines, reads_nil hroom, final_cons, output_cons, confLine_nil]
    exact ⟨rfl, rfl⟩
  | case2 l =>
    obtain ⟨hl, hlen⟩ := hls l List.mem_cons_self
    rw [joinLines, reads_eq hroom]
    rcases Nat.lt_or_eq_of_le hlen with hlt | heq
    · rw [fgets_last hl hlt]
      exact ⟨rfl, rfl⟩
    · have hfull : fgets CONF_ROOM l = ⟨l, [], false⟩ := by
        rw [← heq, ← fgets_full hl [], List.append_nil]
      rw [hfull]
      simp only [Bool.false_eq_true, if_false, reads_nil hroom, final_cons, output_cons,
        confLine_nil, final_nil, output_nil, List.append_nil, callsOf_below]
      exact ⟨trivial, trivial⟩
  | case3 l l' ls ih =>
    obtain ⟨hl, hlen⟩ := hls l List.mem_cons_self
    obtain ⟨hline, hcalls⟩ := run_pieces_line (σ := σ) hl hlen
    obtain ⟨hfinal, hrest⟩ :=
      ih (σ := (confLine σ l).1) fun x hx => hls x (List.mem_cons_of_mem _ hx)
    have hsplit : joinLines (l :: l' :: ls) = (l ++ [newline]) ++ joinLines (l' :: ls) := by
      rw [joinLines, List.append_assoc]
      rfl
    have hout : output confLine σ (l :: l' :: ls) =
        (confLine σ l).2 ++ output confLine (confLine σ l).1 (l' :: ls) := rfl
    rw [hsplit, (wholeLines_snoc l).reads_append hroom, final_append, output_append,
      callsOf_append, hcalls, hline, hfinal, hrest, hout, callsOf_append]
    exact ⟨rfl, rfl⟩

theorem confOps_joinLines (hls : ∀ l ∈ ls, newline ∉ l ∧ l.length ≤ CONF_ROOM) :
    confOps (joinLines ls) = addsOf (output confLine .init ls) := by
  rw [confOps, ← addsOf_callsOf, loadEvents, (run_joinLines hls).2, addsOf_callsOf]

end Lines

end JailFs
