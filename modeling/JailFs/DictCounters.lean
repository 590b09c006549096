import JailFs.DictTermination
import JailFs.DictDelete

/-!
# What the counters of the dictionary count

`used` is to be the number of live slots, and `fill` at least that of the live slots and the
tombstones. `dict_add_p` counts an overwritten slot as a new one, and `dict_del` counts a key down
that it did not find; only a resize that grows the table sets the counters right again. So the
counters are right after a call exactly if the call is not one of these, `counted_of_run`.
-/

namespace JailFs

namespace Keypair

def isDummy (kp : Keypair) : Bool := kp.key = .dummy

theorem Ok.kind {kp : Keypair} (h : kp.Ok) :
    kp.isNull.toNat + kp.isLive.toNat + kp.isDummy.toNat = 1 := by
  rw [isNull, isLive, isDummy]
  cases hk : kp.key with
  | freed => simp only [Ok, hk] at h
  | _ => simp

end Keypair

def tombCount (table : List Keypair) : ℕ := table.countP Keypair.isDummy

theorem countP_cons_toNat (p : Keypair → Bool) (kp : Keypair) (table : List Keypair) :
    (kp :: table).countP p = table.countP p + (p kp).toNat := by
  rw [List.countP_cons]
  cases p kp <;> rfl

namespace Dict

/-- The counters and the size as they should be. -/
structure Counted (d : Dict) : Prop where
  used : d.used.toNat = liveCount d.table
  fill_ge : liveCount d.table + tombCount d.table ≤ d.fill.toNat
  fill_le : d.fill.toNat ≤ d.size.toNat
  size : ∃ k, d.size.toNat = 2 ^ k ∧ DICT_MIN_SZ.toNat ≤ d.size.toNat

/-- A store of the key leaves the counters right: the table grows, or the key is new and `fill` has
not come to the size. -/
def StoreCounts (d : Dict) (key : CString) : Prop :=
  (d.load.stored (d.toMap key).isNone).Grows ∨ ¬ d.Present key ∧ d.fill < d.size

instance (d : Dict) (key : CString) : Decidable (d.StoreCounts key) :=
  inferInstanceAs (Decidable (_ ∨ _))

end Dict

/-- The call leaves the counters right, as far as the state before it tells. -/
def DictOp.Counts (d : Dict) : DictOp → Prop
  | add key _ => d.StoreCounts key
  | addTs key _ _ => d.StoreCounts key
  | get _ _ => True
  | del key => d.Present key

instance (d : Dict) (op : DictOp) : Decidable (op.Counts d) := by
  cases op <;> unfold DictOp.Counts <;> infer_instance

/-- A call that counts right and returns. -/
def DictOp.CountingStep (d : Dict) (op : DictOp) (d' : Dict) : Prop := op.Counts d ∧ op.Step d d'

namespace Dict

variable {d d' d₁ : Dict} {env : DictEnv} {fuel : ℕ} {key : CString}

/-- Every slot of a table without freed keys was never used, is a tombstone or is live. -/
theorem WF.counts_add (h : d.WF) :
    nullCount d.table + liveCount d.table + tombCount d.table = d.size.toNat := by
  have hsplit (table : List Keypair) (hok : ∀ kp ∈ table, kp.Ok) :
      nullCount table + liveCount table + tombCount table = table.length := by
    induction table with
    | nil => rfl
    | cons kp table ih =>
      have htail := ih fun kp hmem => hok kp (List.mem_cons_of_mem _ hmem)
      have hkind := (hok kp List.mem_cons_self).kind
      unfold nullCount liveCount tombCount at htail ⊢
      rw [List.length_cons, ← htail, countP_cons_toNat, countP_cons_toNat, countP_cons_toNat]
      omega
  rw [← h.length]
  exact hsplit d.table h.slots

theorem WF.counted_iff (h : d.WF) : d.Counted ↔ d.used.toNat = liveCount d.table ∧
    d.size.toNat ≤ d.fill.toNat + nullCount d.table ∧ d.fill.toNat ≤ d.size.toNat := by
  have hadd := h.counts_add
  constructor
  · intro hc
    have hge := hc.fill_ge
    exact ⟨hc.used, by omega, hc.fill_le⟩
  · rintro ⟨hused, hge, hle⟩
    obtain ⟨k, hk, -, hsize⟩ := h.size
    refine ⟨hused, by omega, hle, k, hsize, ?_⟩
    rw [hsize]
    exact Nat.pow_le_pow_right (n := 2) (by omega) hk

section Store

variable {val : Option CString} {blob : Option Addr} {ts rc : ℤ} {copy : Bool} {slot : Keypair}

theorem WF.addP_inv (h : d.WF) (henv : env.NoFail)
    (ha : d.addP env (fuel + 1) (some key) val blob ts copy = some (d', rc)) :
    ∃ d₁ : Dict, d₁.WF ∧ d₁.load = d.load.stored (d.toMap key).isNone ∧
      (nullCount d₁.table = nullCount d.table ∨ nullCount d₁.table + 1 = nullCount d.table) ∧
      (¬ d₁.load.Full ∧ d' = d₁ ∨ d₁.load.Full ∧ ∃ rc', d₁.resize env
        (fun d key val ts => addP env fuel d (some key) val none ts false) fuel =
          some (d', rc')) := by
  rw [addP] at ha
  cases hl : d.lookup key (dictHash key) fuel with
  | none => simp [hl] at ha
  | some i =>
    obtain ⟨hlt, slot, hs⟩ := h.lookup_slot hl
    obtain ⟨slot', hstore, hok, hslot⟩ := store_spec henv slot key val blob ts copy
    have hkey : slot'.key = .live key :=
      Keypair.holds_iff.mp (Keypair.toSlot_eq_live_iff.mp hslot).1
    have hlive : slot'.isLive = true := by rw [Keypair.isLive, hkey]
    have hnonnull : slot'.isNull = false := by
      rw [Keypair.isNull, hkey]
      rfl
    obtain ⟨hload, hnull⟩ := h.load_put hl hs hlive hnonnull
    refine ⟨d.put i slot', (h.put_spec hl hok hslot).1, hload, hnull.imp_right And.right, ?_⟩
    simp only [hl, hs, hstore] at ha
    split_ifs at ha with hneeds
    · cases hr : (d.put i slot').resize env
          (fun d key val ts => addP env fuel d (some key) val none ts false) fuel with
      | none => simp [hr] at ha
      | some r =>
        obtain ⟨d₂, rc₂⟩ := r
        simp only [hr, Option.some.injEq, Prod.mk.injEq] at ha
        obtain ⟨rfl, -⟩ := ha
        exact .inr ⟨needsResize_iff.mp hneeds, rc₂, rfl⟩
    · simp only [Option.some.injEq, Prod.mk.injEq] at ha
      obtain ⟨rfl, -⟩ := ha
      exact .inl ⟨fun hfull => hneeds (needsResize_iff.mpr hfull), rfl⟩

theorem resize_quiet {add : Dict → CString → Option CString → ℤ → Option (Dict × ℤ)}
    (hquiet : ¬ d.size ≤ d.load.bound) (hr : d.resize env add fuel = some (d', rc)) : d' = d := by
  rw [resize, resize_bound] at hr
  cases fuel with
  | zero => cases hr
  | succ fuel =>
    rw [growLoop, if_neg hquiet] at hr
    simp only [if_true, Option.some.injEq, Prod.mk.injEq] at hr
    exact hr.1.symm

/-- With counters that were right before the store, the doubling of a resize that returns has not
wrapped around, nor has the bound it goes up to. -/
theorem WF.resizeEnds_of_returns (h : d.WF)
    {add : Dict → CString → Option CString → ℤ → Option (Dict × ℤ)}
    (hused : d.used.toNat ≤ d.size.toNat + 1) (hlive : liveCount d.table ≤ d.used.toNat)
    (hgrows : d.load.Grows) (hr : d.resize env add fuel = some (d', rc)) :
    d.load.ResizeEnds := by
  intro _
  rw [resize, resize_bound] at hr
  cases hg : growLoop d.load.bound fuel d.size with
  | none => simp [hg] at hr
  | some newsize =>
    have hgt := UInt32.lt_iff_toNat_lt.mp (growLoop_gt hg)
    have hnew := (growLoop_isTableSize h.size hg).le
    have hle := UInt32.le_iff_toNat_le.mp hgrows.2
    have hsize := h.size.le
    have hbound : d.load.bound.toNat =
        (if 64000 < d.size.toNat then 2 else 4) * d.used.toNat % 2 ^ 32 := by
      rw [Load.bound, UInt32.toNat_mul, factor_toNat]
      rfl
    change d.size.toNat ≤ _ at hle
    have hpos := h.size.pos
    refine ⟨by omega, fun _ => ?_⟩
    change liveCount d.table < 2 ^ 30
    split_ifs at hbound with hbig
    · omega
    · omega

theorem Exact.counted (h : d.Exact) (hwf : d.WF) : d.Counted := by
  have hsize := hwf.size.le
  have hslots := h.slots
  have hlive : liveCount d.table < 2 ^ 32 := by omega
  have hused : d.used.toNat = liveCount d.table := by
    rw [h.used, UInt32.toNat_ofNat_of_lt' hlive]
  have hfill : d.fill.toNat = liveCount d.table := by
    rw [h.fill, UInt32.toNat_ofNat_of_lt' hlive]
  exact hwf.counted_iff.mpr ⟨hused, by omega, by omega⟩

theorem Counted.put_iff (hc : d.Counted) (hwf : d.WF) (hwf₁ : d₁.WF)
    (hload : d₁.load = d.load.stored (d.toMap key).isNone)
    (hnull : nullCount d₁.table = nullCount d.table ∨ nullCount d₁.table + 1 = nullCount d.table) :
    d₁.Counted ↔ ¬ d.Present key ∧ d.fill < d.size := by
  obtain ⟨hused, hge, hle⟩ := hwf.counted_iff.mp hc
  have hsize := hwf.size.le
  have hlive := hwf.liveCount_le
  have hsize₁ : d₁.size = d.size := congrArg Load.size hload
  have hlive₁ : liveCount d₁.table = liveCount d.table + (d.toMap key).isNone.toNat :=
    congrArg Load.live hload
  have hused₁ : d₁.used.toNat = d.used.toNat + 1 := by
    have heq : d₁.used = d.used + 1 := congrArg Load.used hload
    rw [heq, UInt32.toNat_add, UInt32.toNat_one]
    omega
  have hfill₁ : d₁.fill.toNat = d.fill.toNat + 1 := by
    have heq : d₁.fill = d.fill + 1 := congrArg Load.fill hload
    rw [heq, UInt32.toNat_add, UInt32.toNat_one]
    omega
  rw [hwf₁.counted_iff, hsize₁, hlive₁, hused₁, hfill₁, UInt32.lt_iff_toNat_lt, Present]
  cases d.toMap key with
  | none =>
    simp
    omega
  | some v =>
    simp
    omega

theorem Counted.addP_iff (hc : d.Counted) (hwf : d.WF) (henv : env.NoFail)
    (ha : d.addP env fuel (some key) val blob ts copy = some (d', rc)) :
    d'.Counted ↔ d.StoreCounts key := by
  have hlong : d.addP env (fuel + 2 ^ 32 + 1 + 1) (some key) val blob ts copy = some (d', rc) :=
    (addP_stable env d (some key) val blob ts copy).le (by omega) ha
  obtain ⟨d₁, hwf₁, hload, hnull, hend⟩ := hwf.addP_inv henv hlong
  by_cases hgrows : (d.load.stored (d.toMap key).isNone).Grows
  · refine iff_of_true ?_ (.inl hgrows)
    rw [← hload] at hgrows
    obtain ⟨rc', hr⟩ := (hend.resolve_left fun h => h.1 hgrows.1).2
    have hends : d₁.load.ResizeEnds := by
      have hsize := hwf.size.le
      have hlive := hwf.liveCount_le
      have hsize₁ : d₁.size = d.size := congrArg Load.size hload
      have hlive₁ : liveCount d₁.table = liveCount d.table + (d.toMap key).isNone.toNat :=
        congrArg Load.live hload
      have hused₁ : d₁.used.toNat = d.used.toNat + 1 := by
        have heq : d₁.used = d.used + 1 := congrArg Load.used hload
        have hused := hc.used
        rw [heq, UInt32.toNat_add, UInt32.toNat_one]
        omega
      have hone := (d.toMap key).isNone.toNat_le
      refine hwf₁.resizeEnds_of_returns ?_ ?_ hgrows hr
      · rw [hused₁, hc.used, hsize₁]
        omega
      · rw [hlive₁, hused₁, hc.used]
        omega
    obtain ⟨d₂, hr₂, hexact, -⟩ := hwf₁.resize_returns henv hends hgrows
      (show 2 ^ 32 ≤ fuel + 2 ^ 32 + 2 by omega)
    rw [hr₂] at hr
    cases hr
    exact hexact.counted (addP_spec henv hwf ha).2.1
  · have hsame : d' = d₁ := by
      rcases hend with ⟨-, rfl⟩ | ⟨hfull, rc', hr⟩
      · rfl
      · refine resize_quiet (fun hle => hgrows ?_) hr
        rw [← hload]
        exact ⟨hfull, hle⟩
    rw [hsame, hc.put_iff hwf hwf₁ hload hnull, StoreCounts, or_iff_right hgrows]

end Store

theorem Counted.del_iff (hc : d.Counted) (hwf : d.WF) {rc : ℤ}
    (hd : d.del (some key) fuel = some (d', rc)) : d'.Counted ↔ d.Present key := by
  obtain ⟨i, slot, hl, hs, -, rfl⟩ := hwf.del_cases hd
  have hwf' := (hwf.del_spec hd).2.1
  obtain ⟨hused, hge, hle⟩ := hwf.counted_iff.mp hc
  have hsize := hwf.size.le
  have hroom := hwf.liveCount_le
  have hlive := hwf.liveCount_overwrite hl hs { slot with key := .dummy, val := none }
  have hnull : nullCount (d.table.set i.toNat { slot with key := .dummy, val := none }) +
      slot.isNull.toNat = nullCount d.table + 0 := nullCount_set hs
  have hfound := (hwf.lookup_slot_cases hl hs).1
  have hkind := (hwf.slots slot (List.mem_of_getElem? hs)).kind
  have hused' : (d.used - 1).toNat = if d.used.toNat = 0 then 2 ^ 32 - 1 else d.used.toNat - 1 := by
    rw [UInt32.toNat_sub, UInt32.toNat_one]
    split_ifs <;> omega
  have htomb : ({ slot with key := .dummy, val := none } : Keypair).isLive = false := rfl
  rw [← hfound, htomb] at hlive
  rw [hwf'.counted_iff, Present, ← hfound]
  simp only [hused']
  cases hold : slot.isLive with
  | true =>
    rw [hold] at hlive hkind
    simp only [Bool.toNat_true, Bool.toNat_false] at hlive hkind
    refine iff_of_true ⟨?_, ?_, hle⟩ rfl
    · split_ifs <;> omega
    · omega
  | false =>
    rw [hold] at hlive
    simp only [Bool.toNat_false] at hlive
    refine iff_of_false ?_ Bool.false_ne_true
    rintro ⟨heq, -, -⟩
    split_ifs at heq <;> omega

theorem Counted.step_iff {op : DictOp} (hc : d.Counted) (hwf : d.WF) (hstep : op.Step d d') :
    d'.Counted ↔ op.Counts d := by
  obtain ⟨env, fuel, henv, happly⟩ := hstep
  cases op with
  | add key val =>
    obtain ⟨⟨d₁, rc⟩, ha, rfl⟩ := Option.map_eq_some_iff.mp happly
    exact hc.addP_iff hwf henv ha
  | addTs key val ts =>
    obtain ⟨⟨d₁, rc⟩, ha, rfl⟩ := Option.map_eq_some_iff.mp happly
    exact hc.addP_iff hwf henv ha
  | get key defval =>
    obtain ⟨r, -, rfl⟩ := Option.map_eq_some_iff.mp happly
    exact iff_of_true hc trivial
  | del key =>
    obtain ⟨⟨d₁, rc⟩, hd, rfl⟩ := Option.map_eq_some_iff.mp happly
    exact hc.del_iff hwf hd

theorem counted_new : Dict.new.Counted :=
  (exact_zero DICT_MIN_SZ).counted wf_new

/-- In a run of calls that count right the counters are right in every state, and after any further
call exactly if that call counts right too. -/
theorem counted_of_run {ops : List DictOp} (hrun : Exec DictOp.CountingStep Dict.new ops d) :
    d.Counted ∧ ∀ (op : DictOp) (d' : Dict), op.Step d d' → (d'.Counted ↔ op.Counts d) := by
  have hwf := (run_wf_and_map (hrun.mono fun _ _ _ h => h.2)).1
  have hcounted : d.WF ∧ d.Counted :=
    hrun.invariant (I := fun d => d.WF ∧ d.Counted) ⟨wf_new, counted_new⟩
      fun _ _ _ h hstep => ⟨(step_spec h.1 hstep.2).1, (h.2.step_iff h.1 hstep.2).mpr hstep.1⟩
  exact ⟨hcounted.2, fun op d' hstep => hcounted.2.step_iff hwf hstep⟩

def countingOps : List DictOp :=
  [.add (.ofChars ['a']) (some (.ofChars ['1'])), .add (.ofChars ['b']) none, .del (.ofChars ['a'])]

theorem counted_of_run_three : ∃ d, Exec DictOp.CountingStep Dict.new countingOps d ∧
    d.Counted := by
  have hsome : (countingOps.foldlM (fun (d : Dict) (op : DictOp) =>
      if op.Counts d then op.apply DictEnv.plain 20 d else none) Dict.new).isSome = true := by
    decide +kernel
  have hrun : Exec DictOp.CountingStep Dict.new countingOps _ :=
    Exec.of_foldlM (fun d op d' hstep => by
      split_ifs at hstep with hcounts
      exact ⟨hcounts, DictEnv.plain, 20, DictEnv.plain_noFail, hstep⟩)
      (Option.some_get hsome).symm
  exact ⟨_, hrun, (counted_of_run hrun).1⟩

/-- Deleting a key from a new dictionary takes `used` below zero. -/
theorem del_uncounted : ¬ ∀ (ops : List DictOp) (d : Dict), Dict.Run ops d → d.Counted := by
  intro h
  have hsome : (Dict.eval 20 [.del (.ofChars ['a'])]).isSome = true := by decide +kernel
  have hrun := Dict.run_of_eval (Option.some_get hsome).symm
  obtain ⟨d₁, hnil, hstep⟩ := Exec.last (show Exec _ _ ([] ++ [_]) _ from hrun)
  rw [Exec.nil_iff.mp hnil] at hstep
  have habs : ¬ Dict.new.Present (.ofChars ['a']) := by
    rw [Present, toMap_new]
    exact Bool.false_ne_true
  exact habs ((counted_new.step_iff wf_new hstep).mp (h _ _ hrun))

end Dict

end JailFs
