import JailFs.DictTermination

/-!
# Dictionaries that are only added to

When keys are only added, `used` and `fill` agree and bound the number of slots in use. The table
then grows in time, so that every add returns as long as there are fewer than `2 ^ 30` of them;
and past `2 ^ 30` no add returns, because the doubling of `newsize` wraps to zero.
-/

namespace JailFs.Dict

/-- The state of a dictionary after adds only: `u` stores since the last resize, counting the keys
that it moved. -/
structure Filled (d : Dict) (u : ℕ) : Prop where
  wf : d.WF
  fill : d.fill = UInt32.ofNat u
  used : d.used = UInt32.ofNat u
  live : liveCount d.table ≤ u
  slots : d.size.toNat ≤ nullCount d.table + u
  roomy : 3 * u < 2 * d.size.toNat ∨ d.size.toNat = 2 ^ 31

section Filled

variable {d d' : Dict} {u : ℕ} {env : DictEnv} {key : CString} {val : Option CString}

theorem filled_new : Dict.new.Filled 0 :=
  ⟨wf_new, rfl, rfl, by decide, by decide, Or.inl (by decide)⟩

theorem IsTableSize.le_or_eq {size : UInt32} (h : IsTableSize size) :
    size.toNat ≤ 2 ^ 30 ∨ size.toNat = 2 ^ 31 := by
  obtain ⟨k, _, hlt, hk⟩ := h
  by_cases hk31 : k = 31
  · exact Or.inr (by rw [hk, hk31])
  · exact Or.inl (by rw [hk]; exact Nat.pow_le_pow_right (by omega) (by omega))

theorem Filled.neverUsed (h : d.Filled u) (hu : u < 2 ^ 30) : 0 < nullCount d.table := by
  have hslots := h.slots
  have hpos := h.wf.size.pos
  rcases h.roomy with hroom | hroom <;> omega

theorem counter_toNat (hu : u < 2 ^ 30) : (UInt32.ofNat u + 1).toNat = u + 1 := by
  rw [UInt32.toNat_add, UInt32.toNat_ofNat_of_lt' (by rw [UInt32.size]; omega)]
  exact Nat.mod_eq_of_lt (by change u + 1 < 2 ^ 32; omega)

theorem Filled.bound_toNat (h : d.Filled u) (hu : u < 2 ^ 30) (new : Bool) :
    (d.load.stored new).bound.toNat = (if 64000 < d.size.toNat then 2 else 4) * (u + 1) := by
  have hused : (d.load.stored new).used = UInt32.ofNat u + 1 := congrArg (· + 1) h.used
  have hsize : (d.load.stored new).size = d.size := rfl
  rw [Load.bound, UInt32.toNat_mul, hsize, factor_toNat, hused, counter_toNat hu]
  apply Nat.mod_eq_of_lt
  have hle := IsTableSize.le_or_eq h.wf.size
  rcases h.roomy with hroom | hroom <;> split_ifs <;> omega

/-- After one more store, the table is too full exactly when the numbers say so. -/
theorem Filled.full_iff (h : d.Filled u) (hu : u < 2 ^ 30) (hsize : d.size.toNat ≤ 2 ^ 30)
    (new : Bool) : (d.load.stored new).Full ↔ 2 * d.size.toNat ≤ 3 * (u + 1) := by
  have hfill : (d.load.stored new).fill = UInt32.ofNat u + 1 := congrArg (· + 1) h.fill
  have hdouble : (d.size * 2).toNat = 2 * d.size.toNat := by
    rw [UInt32.toNat_mul, show UInt32.toNat 2 = 2 from rfl, Nat.mul_comm]
    exact Nat.mod_eq_of_lt (by omega)
  have htriple : (3 * (UInt32.ofNat u + 1)).toNat = 3 * (u + 1) := by
    rw [UInt32.toNat_mul, counter_toNat hu]
    exact Nat.mod_eq_of_lt (by change 3 * (u + 1) < 2 ^ 32; omega)
  rw [Load.Full, hfill, UInt32.le_iff_toNat_le, htriple]
  exact (congrArg (· ≤ 3 * (u + 1)) hdouble).to_iff

theorem Filled.ready (h : d.Filled u) (hu : u + 1 < 2 ^ 30) : d.Ready := by
  refine ⟨h.wf, h.neverUsed (by omega), fun _ => ⟨?_, fun _ => ?_⟩⟩
  · rw [h.bound_toNat (by omega)]
    have hle := IsTableSize.le_or_eq h.wf.size
    rcases h.roomy with hroom | hroom <;> split_ifs <;> omega
  · have hlive := h.live
    change liveCount d.table + 1 < 2 ^ 30
    omega

theorem Filled.add (h : d.Filled u) (hu : u + 1 < 2 ^ 30) (henv : env.NoFail) (key : CString)
    (val : Option CString) :
    ∃ d', d.add env (2 ^ 32) (some key) val = some (d', 0) ∧ ∃ u' ≤ u + 1, d'.Filled u' := by
  obtain ⟨d', hadd, hcases⟩ :=
    (h.ready hu).addP_returns henv (le_refl (2 ^ 32)) key val none env.now true
  have hwf := (addP_spec henv h.wf hadd).2.1
  have hnew : (d.toMap key).isNone.toNat ≤ 1 := Bool.toNat_le _
  have hlive := h.live
  refine ⟨d', hadd, ?_⟩
  rcases hcases with ⟨_, hexact, hroom, hcount⟩ | ⟨hquiet, hload, hnull⟩
  · have hle : liveCount d'.table ≤ u + 1 := by
      rw [hcount]
      change liveCount d.table + (d.toMap key).isNone.toNat ≤ u + 1
      omega
    have hslots := hexact.slots
    have hpos := hwf.size.pos
    have hhalf := hroom.1
    exact ⟨_, hle, hwf, hexact.fill, hexact.used, le_rfl, hslots.ge, Or.inl (by omega)⟩
  · have hsize : d'.size = d.size := congrArg Load.size hload
    refine ⟨u + 1, le_rfl, hwf, ?_, ?_, ?_, ?_, ?_⟩
    · have hfill : d'.fill = d.fill + 1 := congrArg Load.fill hload
      rw [hfill, h.fill]
      exact (UInt32.ofNat_add u 1).symm
    · have hused : d'.used = d.used + 1 := congrArg Load.used hload
      rw [hused, h.used]
      exact (UInt32.ofNat_add u 1).symm
    · have hcount : liveCount d'.table = liveCount d.table + (d.toMap key).isNone.toNat :=
        congrArg Load.live hload
      omega
    · have hslots := h.slots
      rw [hsize]
      rcases hnull with hsame | ⟨_, hone⟩ <;> omega
    · rw [hsize]
      rcases IsTableSize.le_or_eq h.wf.size with hle | heq
      · left
        by_contra hno
        apply hquiet
        refine ⟨(h.full_iff (by omega) hle _).mpr (by omega), ?_⟩
        rw [UInt32.le_iff_toNat_le, h.bound_toNat (by omega)]
        change d.size.toNat ≤ _
        split_ifs <;> omega
      · exact Or.inr heq

/-- The add that would bring `used` to `2 ^ 30` never comes back. -/
theorem Filled.add_diverges (h : d.Filled u) (hu : u + 1 = 2 ^ 30) (henv : env.NoFail)
    (key : CString) (val : Option CString) (fuel : ℕ) :
    d.add env fuel (some key) val = none := by
  have hsize : d.size.toNat = 2 ^ 31 := by
    rcases IsTableSize.le_or_eq h.wf.size with hle | heq
    · rcases h.roomy with hroom | hroom <;> omega
    · exact heq
  have hdouble : d.size * 2 = 0 := by
    rw [← UInt32.toNat_inj, UInt32.toNat_mul, hsize]
    rfl
  by_contra hsome
  obtain ⟨r, hr⟩ := Option.ne_none_iff_exists'.mp hsome
  have hmore : d.addP env (fuel + 2 ^ 32 + 1 + 1) (some key) val none env.now true = some r :=
    (addP_stable env d (some key) val none env.now true).le (by omega) hr
  obtain ⟨d₁, _, hload, _, hadd⟩ := h.wf.addP_put henv (h.neverUsed (by omega))
    (show 7 + d.size.toNat ≤ fuel + 2 ^ 32 + 1 by omega) key val none env.now true
  have hsize₁ : d₁.size = d.size := congrArg Load.size hload
  have hfull : d₁.needsResize = true := by
    rw [needsResize, decide_eq_true_eq, hsize₁, hdouble]
    exact UInt32.zero_le
  have hbound : d.size ≤ d₁.load.bound := by
    rw [UInt32.le_iff_toNat_le, hload, h.bound_toNat (by omega)]
    split_ifs <;> omega
  have hgrow : growLoop (d₁.resizeFactor * d₁.used) (fuel + 2 ^ 32 + 1) d₁.size = none := by
    rw [growLoop, resize_bound, hsize₁, if_pos hbound, hdouble, growLoop_zero]
  rw [hadd, if_pos hfull, resize, hgrow] at hmore
  cases hmore

theorem Filled.of_add (h : d.Filled u) (hu : u < 2 ^ 30) (henv : env.NoFail) {fuel : ℕ} {rc : ℤ}
    (hadd : d.add env fuel (some key) val = some (d', rc)) :
    ∃ u' < 2 ^ 30, u' ≤ u + 1 ∧ d'.Filled u' := by
  by_cases hlast : u + 1 = 2 ^ 30
  · rw [h.add_diverges hlast henv] at hadd
    cases hadd
  · obtain ⟨d₁, hadd₁, u', hle, hfilled⟩ := h.add (by omega) henv key val
    have hstable := addP_stable env d (some key) val none env.now true
    have heq := Fuel.Returns.unique hstable ⟨fuel, hadd⟩ ⟨2 ^ 32, hadd₁⟩
    cases heq
    exact ⟨u', by omega, hle, hfilled⟩

end Filled

variable {ops : List DictOp} {d : Dict}

theorem filled_of_run (hops : ∀ op ∈ ops, ∃ key val, op = .add key val) (hrun : Dict.Run ops d) :
    ∃ u < 2 ^ 30, d.Filled u := by
  induction ops using List.reverseRecOn generalizing d with
  | nil =>
    rw [Exec.nil_iff.mp hrun]
    exact ⟨0, by omega, filled_new⟩
  | append_singleton ops op ih =>
    obtain ⟨d₁, hrun₁, env, fuel, henv, happly⟩ := hrun.last
    obtain ⟨key, val, rfl⟩ := hops op (List.mem_append_right _ List.mem_cons_self)
    obtain ⟨u, hu, hfilled⟩ := ih (fun op h => hops op (List.mem_append_left _ h)) hrun₁
    obtain ⟨⟨d₂, rc⟩, hadd, rfl⟩ := Option.map_eq_some_iff.mp happly
    obtain ⟨u', hu', _, hfilled'⟩ := hfilled.of_add hu henv hadd
    exact ⟨u', hu', hfilled'⟩

/-- The dictionary that adds build has fewer than `2 ^ 30` keys. -/
theorem liveCount_lt_of_run (hops : ∀ op ∈ ops, ∃ key val, op = .add key val)
    (hrun : Dict.Run ops d) : liveCount d.table < 2 ^ 30 := by
  obtain ⟨u, hu, hfilled⟩ := filled_of_run hops hrun
  exact hfilled.live.trans_lt hu

theorem exists_run_of_adds (hops : ∀ op ∈ ops, ∃ key val, op = .add key val)
    (hlen : ops.length < 2 ^ 30) : ∃ d, Dict.Run ops d ∧ ∃ u ≤ ops.length, d.Filled u := by
  induction ops using List.reverseRecOn with
  | nil => exact ⟨Dict.new, Exec.nil _, 0, le_rfl, filled_new⟩
  | append_singleton ops op ih =>
    rw [List.length_append, List.length_singleton] at hlen ⊢
    obtain ⟨key, val, rfl⟩ := hops op (List.mem_append_right _ List.mem_cons_self)
    obtain ⟨d, hrun, u, hu, hfilled⟩ :=
      ih (fun op h => hops op (List.mem_append_left _ h)) (by omega)
    obtain ⟨d', hadd, u', hu', hfilled'⟩ :=
      hfilled.add (by omega) DictEnv.plain_noFail key val
    refine ⟨d', hrun.snoc ⟨DictEnv.plain, 2 ^ 32, DictEnv.plain_noFail, ?_⟩, u', by omega,
      hfilled'⟩
    rw [DictOp.apply, hadd]
    rfl

end JailFs.Dict
