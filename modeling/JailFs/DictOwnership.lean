import JailFs.DictMemorySim

/-!
# Who owns the strings of a dictionary

In every state that a run reaches, each string that is allocated is either in the table, by exactly
one pointer, or was dropped by a `dict_add` of a key that was there. So no call gives back or reads
a string that was given back (`dict_memory_refines`), and `dict_free` leaves allocated as many
strings as the run leaked, which the calls alone determine (`dict_freed`).
-/

namespace JailFs

open Dict DictMem

variable {m m' : Strings} {d d' : DictMem} {slot : KeypairMem} {e : DictMemEnv} {key : CString}
  {val : Option CString} {fuel : ℕ} {i : UInt32} {dd : Dict} {rc : ℤ} {lost : List Addr}
  {s s' : Strings × DictMem} {op : DictOp} {ops : List DictOp}

/-- The strings that are allocated are those of the table, each with one pointer to it, and those
that were lost. -/
structure DictMem.Accounts (s : Strings × DictMem) (lost : List Addr) : Prop where
  wf : (s.2.read s.1).WF
  ledger : Blocks.Ledger s.1 (s.2.owned ++ lost)

theorem backed_of_ledger (h : Blocks.Ledger m (d.owned ++ lost)) : d.Backed m :=
  fun _ hx => h.live (List.mem_append_left lost hx)

section Calls

theorem dropped_length (hwf : (d.read m).WF) (hb : d.Backed m)
    (hl : (d.read m).lookup key (dictHash key) fuel = some i)
    (hs : d.table[i.toNat]? = some slot) :
    (slot.dropped val).length = (DictOp.add key val).leaks (d.read m).toMap := by
  obtain ⟨slot', hs', hmem, hok⟩ := lookup_mem hwf hl
  obtain rfl : slot = slot' := Option.some.inj (hs.symm.trans hs')
  have haddr := lookup_addr hwf hb hl hs
  cases hmap : (d.read m).toMap key with
  | none =>
    have hnone : slot.key.addr = none := by
      rw [hmap] at haddr
      exact Option.isNone_iff_eq_none.mp (by simpa using haddr)
    have howned := KeypairMem.owned_vacant hok (hb.of_slot hmem) hnone
    rw [KeypairMem.owned, List.append_eq_nil_iff] at howned
    simp [KeypairMem.dropped, DictOp.leaks, hmap, howned]
  | some old =>
    have hslot := slot_read_some (m := m) hs
    have hval := hwf.lookup_val hl hslot
    rw [hmap, Option.join_some] at hval
    change slot.val.bind m = old at hval
    obtain ⟨a, ha⟩ : ∃ a, slot.key.addr = some a :=
      Option.isSome_iff_exists.mp (by rw [haddr, hmap]; rfl)
    have hlen : slot.val.toList.length = if old.isSome then 1 else 0 := by
      cases hv : slot.val with
      | none =>
        rw [← hval, hv]
        rfl
      | some x =>
        obtain ⟨t, ht⟩ := hb.of_slot hmem x (KeypairMem.mem_owned_val hv)
        rw [← hval, hv]
        change 1 = if (m x).isSome then 1 else 0
        rw [ht]
        rfl
    rw [KeypairMem.dropped, List.length_append, ha, DictOp.leaks, hmap]
    cases val with
    | none => rfl
    | some v => cases old <;> simp [hlen]

/-- Two calls that agree: both do not return, or both do, and the strings that are lost then are
`n` more. -/
inductive Called (lost : List Addr) (n : ℕ) :
    Option (Strings × DictMem × ℤ) → Option (Dict × ℤ) → Prop
  | none : Called lost n none none
  | some {m : Strings} {d : DictMem} (rc : ℤ) (new : List Addr)
      (accounts : Accounts (m, d) (new ++ lost)) (length : new.length = n) :
      Called lost n (some (m, d, rc)) (some (d.read m, rc))

theorem addP_copied (henv : e.env.NoFail) (hfresh : e.Fresh m) (h : Accounts (m, d) lost)
    (fuel : ℕ) (key : CString) (val : Option CString) (ts : ℤ) :
    Called lost ((DictOp.add key val).leaks (d.read m).toMap)
      (DictMem.addP e fuel m d (.copied key val) none ts)
      ((d.read m).addP e.env fuel (some key) val none ts true) := by
  have hb : d.Backed m := backed_of_ledger h.ledger
  cases fuel with
  | zero => exact .none
  | succ fuel =>
    cases hl : (d.read m).lookup key (dictHash key) fuel with
    | none =>
      simp only [Dict.addP, DictMem.addP, Source.key, hl]
      exact .none
    | some i =>
      obtain ⟨slot, hs, hmem, hok⟩ := lookup_mem h.wf hl
      obtain ⟨m', slot', hstore, hstore', hsame, hled, hperm⟩ :=
        store_copied henv hfresh slot (hb.of_slot hmem) key val none ts (dictHash key) h.ledger
      have hread : d.read m' = d.read m :=
        read_congr fun x hx => hsame x (List.mem_append_left lost hx)
      have hput : ((d.put i slot').owned ++ slot.dropped val).Perm (e.copies val ++ d.owned) := by
        have hset : ((d.put i slot').owned ++ slot.owned).Perm (slot'.owned ++ d.owned) :=
          owned_set hs slot'
        rw [List.perm_iff_count] at hset hperm ⊢
        intro x
        have h₁ := hset x
        have h₂ := hperm x
        simp only [List.count_append] at h₁ h₂ ⊢
        omega
      have hled' : Blocks.Ledger m' ((d.put i slot').owned ++ (slot.dropped val ++ lost)) := by
        apply hled.perm
        rw [← List.append_assoc, ← List.append_assoc]
        exact (hput.append_right lost).symm
      have hcall := addP_stored (.copied key val) henv (moves_addP henv m' fuel) rfl hl hs
        hstore hstore' hread (put_wf h.wf henv hl hread hstore') (backed_of_ledger hled')
      change Agrees m' (d.put i slot').owned _
        ((d.read m).addP e.env (fuel + 1) (some key) val none ts true) at hcall
      generalize DictMem.addP e (fuel + 1) m d (.copied key val) none ts = x at hcall ⊢
      generalize ha : (d.read m).addP e.env (fuel + 1) (some key) val none ts true = y at hcall ⊢
      cases hcall with
      | none => exact .none
      | some d' rc hp =>
        exact .some rc (slot.dropped val)
          ⟨(addP_spec henv h.wf ha).2.1, hled'.perm (hp.append_right _).symm⟩
          (dropped_length h.wf hb hl hs)

theorem del_copied (h : Accounts (m, d) lost) (key : CString) (fuel : ℕ) :
    Called lost 0 (DictMem.del m d key fuel) ((d.read m).del (some key) fuel) := by
  cases hl : (d.read m).lookup key (dictHash key) fuel with
  | none =>
    simp only [DictMem.del, Dict.del, hl]
    exact .none
  | some i =>
    obtain ⟨kp, hkp, hdel⟩ := h.wf.del_isSome hl
    obtain ⟨slot, hs, hmem, hok⟩ := lookup_mem h.wf hl
    have hslot := slot_read_some (m := m) hs
    obtain rfl : slot.read m = kp := Option.some.inj (hslot.symm.trans hkp)
    let tomb : KeypairMem := { slot with key := .dummy, val := none }
    let d' : DictMem := { d with table := d.table.set i.toNat tomb, used := d.used - 1 }
    have hset : (d'.owned ++ slot.owned).Perm d.owned := owned_set hs tomb
    have hled : Blocks.Ledger m (slot.owned ++ (d'.owned ++ lost)) := by
      apply h.ledger.perm
      rw [← List.append_assoc]
      exact ((List.perm_append_comm.trans hset).append_right lost).symm
    obtain ⟨m', hfree, hled', hsame⟩ := hled.freeAll
    have hread : d'.read m' = d'.read m := by
      apply read_congr
      intro x hx
      apply hsame
      intro hx'
      exact (List.nodup_append.mp hled.nodup).2.2 x hx' x (List.mem_append_left lost hx) rfl
    have hval : d'.read m = { d.read m with
        table := (d.read m).table.set i.toNat { slot.read m with key := .dummy, val := none },
        used := (d.read m).used - 1 } := by
      simp only [DictMem.read, d', List.map_set]
      rfl
    have hmem' : DictMem.del m d key fuel = some (m', d', 0) := by
      simp only [DictMem.del, hl, hs, hfree]
      rfl
    have hwf : (d'.read m').WF := by
      rw [hread, hval]
      exact (h.wf.del_spec hdel).2.1
    rw [hdel, hmem', ← hval, ← hread]
    exact .some 0 [] ⟨hwf, hled'⟩ rfl

end Calls

section Runs

theorem applyMem_agrees (henv : e.env.NoFail) (hfresh : e.Fresh s.1) (h : Accounts s lost)
    (fuel : ℕ) (op : DictOp) :
    (op.applyMem e fuel s = none ∧ op.apply e.env fuel (s.2.read s.1) = none) ∨
      ∃ s' new, op.applyMem e fuel s = some s' ∧
        op.apply e.env fuel (s.2.read s.1) = some (s'.2.read s'.1) ∧ Accounts s' (new ++ lost) ∧
        new.length = op.leaks (s.2.read s.1).toMap := by
  obtain ⟨m, d⟩ := s
  have hcalled {n : ℕ} {x : Option (Strings × DictMem × ℤ)} {y : Option (Dict × ℤ)}
      (hc : Called lost n x y) : (x.map (fun r => (r.1, r.2.1)) = none ∧ y.map Prod.fst = none) ∨
        ∃ s' new, x.map (fun r => (r.1, r.2.1)) = some s' ∧
          y.map Prod.fst = some (s'.2.read s'.1) ∧ Accounts s' (new ++ lost) ∧ new.length = n := by
    cases hc with
    | none => exact .inl ⟨rfl, rfl⟩
    | some rc new hacc hlen => exact .inr ⟨_, new, rfl, rfl, hacc, hlen⟩
  cases op with
  | add key val => exact hcalled (addP_copied henv hfresh h fuel key val e.now)
  | addTs key val ts => exact hcalled (addP_copied henv hfresh h fuel key val ts)
  | del key => exact hcalled (del_copied h key fuel)
  | get key defval =>
    cases hl : (d.read m).lookup key (dictHash key) fuel with
    | none => exact .inl (by simp [DictOp.applyMem, DictOp.apply, DictMem.get, Dict.get, hl])
    | some i =>
      obtain ⟨slot, hs, -, -⟩ := lookup_mem h.wf hl
      have hslot := slot_read_some (m := m) hs
      refine .inr ⟨(m, d), [], ?_, ?_, h, rfl⟩
      · simp [DictOp.applyMem, DictMem.get, hl, hs]
      · simp [DictOp.apply, Dict.get, hl, hslot]

/-- The two calls answer the same, and the string that `dict_get` gives is allocated. -/
theorem answerMem_eq (henv : e.env.NoFail) (hfresh : e.Fresh s.1) (h : Accounts s lost)
    (fuel : ℕ) (op : DictOp) :
    op.answerMem e fuel s = op.answer e.env fuel (s.2.read s.1) := by
  obtain ⟨m, d⟩ := s
  have hcalled {n : ℕ} {x : Option (Strings × DictMem × ℤ)} {y : Option (Dict × ℤ)}
      (hc : Called lost n x y) :
      x.map (fun r => DictAnswer.code r.2.2) = y.map fun r => DictAnswer.code r.2 := by
    cases hc with
    | none => rfl
    | some => rfl
  cases op with
  | add key val => exact hcalled (addP_copied henv hfresh h fuel key val e.now)
  | addTs key val ts => exact hcalled (addP_copied henv hfresh h fuel key val ts)
  | del key => exact hcalled (del_copied h key fuel)
  | get key defval =>
    cases hl : (d.read m).lookup key (dictHash key) fuel with
    | none => simp [DictOp.answerMem, DictOp.answer, DictMem.get, Dict.get, hl]
    | some i =>
      obtain ⟨slot, hs, hmem, -⟩ := lookup_mem h.wf hl
      have hslot := slot_read_some (m := m) hs
      cases hv : slot.val with
      | none => simp [DictOp.answerMem, DictOp.answer, DictMem.get, Dict.get, KeypairMem.read, hl,
          hs, hslot, hv]
      | some a =>
        obtain ⟨v, ha⟩ : ∃ v, m a = some v :=
          (backed_of_ledger h.ledger).of_slot hmem a (KeypairMem.mem_owned_val hv)
        simp [DictOp.answerMem, DictOp.answer, DictMem.get, Dict.get, KeypairMem.read, hl, hs,
          hslot, hv, ha]

theorem leaksOf_snoc (map : StringMap) (ops : List DictOp) (op : DictOp) :
    leaksOf map (ops ++ [op]) = leaksOf map ops + op.leaks (ops.foldl DictOp.effect map) := by
  induction ops generalizing map with
  | nil => exact (Nat.zero_add _).symm
  | cons op' ops ih => rw [List.cons_append, leaksOf, ih, leaksOf, List.foldl_cons, Nat.add_assoc]

theorem read_new (m : Strings) : DictMem.new.read m = Dict.new := read_zero ..

theorem accounts_new : Accounts (fun _ => none, DictMem.new) [] where
  wf := by
    rw [read_new]
    exact wf_new
  ledger := by
    have hempty : DictMem.new.owned = [] := owned_zero ..
    rw [hempty]
    exact .empty Addr CString

theorem run_accounts (hrun : DictMem.Run ops s) :
    Dict.Run ops (s.2.read s.1) ∧
      ∃ lost, Accounts s lost ∧ lost.length = leaksOf (fun _ => none) ops := by
  refine hrun.history_invariant (I := fun ops s => Dict.Run ops (s.2.read s.1) ∧
    ∃ lost, Accounts s lost ∧ lost.length = leaksOf (fun _ => none) ops)
      ⟨?_, [], accounts_new, rfl⟩ ?_
  · rw [read_new]
    exact .nil _
  · rintro ops s op s' ⟨hrun, lost, hacc, hlen⟩ ⟨e, fuel, henv, hfresh, hcall⟩
    rcases applyMem_agrees henv hfresh hacc fuel op with
      ⟨hnone, -⟩ | ⟨s₁, new, hs₁, hd, hacc', hnew⟩
    · rw [hnone] at hcall
      cases hcall
    · obtain rfl : s₁ = s' := Option.some.inj (hs₁.symm.trans hcall)
      refine ⟨hrun.snoc ⟨e.env, fuel, henv, hd⟩, new ++ lost, hacc', ?_⟩
      rw [List.length_append, hnew, hlen, leaksOf_snoc, (run_wf_and_map hrun).2, Nat.add_comm]
      rfl

/-- In every state that a run reaches, a call in memory agrees with the call on the dictionary, and
answers the same: it reads no string that was given back and gives nothing back twice. -/
theorem dict_memory_refines (hrun : DictMem.Run ops s) (henv : e.env.NoFail)
    (hfresh : e.Fresh s.1) (fuel : ℕ) (op : DictOp) :
    Dict.Run ops (s.2.read s.1) ∧
      (op.applyMem e fuel s).map (fun s' => s'.2.read s'.1) =
        op.apply e.env fuel (s.2.read s.1) ∧
      op.answerMem e fuel s = op.answer e.env fuel (s.2.read s.1) := by
  obtain ⟨hdict, lost, hacc, -⟩ := run_accounts hrun
  refine ⟨hdict, ?_, answerMem_eq henv hfresh hacc fuel op⟩
  rcases applyMem_agrees henv hfresh hacc fuel op with ⟨hmem, hd⟩ | ⟨s', new, hmem, hd, -, -⟩
  · rw [hmem, hd]
    rfl
  · rw [hmem, hd]
    rfl

/-- One `dict_add` with copies at two given addresses. -/
def copiesAt (a b : Addr) : DictMemEnv := ⟨1, some a, some b, fun _ => true, 0⟩

def firstAdd : Option (Strings × DictMem) :=
  (DictOp.add (.ofChars ['k']) (some (.ofChars ['v']))).applyMem (copiesAt 1 2) 4
    (fun _ => none, DictMem.new)

theorem firstAdd_isSome : firstAdd.isSome = true := by decide +kernel

theorem firstAdd_run :
    DictMem.Run [.add (.ofChars ['k']) (some (.ofChars ['v']))] (firstAdd.get firstAdd_isSome) := by
  refine .single ⟨copiesAt 1 2, 4, ⟨rfl, rfl, fun _ => rfl⟩, ⟨fun _ _ => rfl, fun _ _ => rfl, ?_⟩,
    (Option.some_get firstAdd_isSome).symm⟩
  rintro a ha hb
  cases ha
  cases hb

theorem freshAt : (copiesAt 3 4).Fresh (firstAdd.get firstAdd_isSome).1 where
  key := by
    rintro a ⟨⟩
    decide +kernel
  val := by
    rintro a ⟨⟩
    decide +kernel
  apart := by rintro a ⟨⟩ ⟨⟩

theorem dict_memory_refines_add : ∃ s,
    DictMem.Run [.add (.ofChars ['k']) (some (.ofChars ['v']))] s ∧
      (DictOp.applyMem (copiesAt 3 4) 4 s (.del (.ofChars ['k']))).map
        (fun s' => s'.2.read s'.1) =
          DictOp.apply (copiesAt 3 4).env 4 (s.2.read s.1) (.del (.ofChars ['k'])) ∧
      DictOp.answerMem (copiesAt 3 4) 4 s (.del (.ofChars ['k'])) =
        DictOp.answer (copiesAt 3 4).env 4 (s.2.read s.1) (.del (.ofChars ['k'])) :=
  ⟨_, firstAdd_run, (dict_memory_refines firstAdd_run ⟨rfl, rfl, fun _ => rfl⟩ freshAt 4 _).2⟩

theorem dictFree_eq (hwf : (d.read m).WF) (hb : d.Backed m) (m' : Strings) :
    dictFree m' d = m'.freeAll d.owned := by
  have hlen : d.table.length = d.size.toNat := by
    rw [← List.length_map (f := KeypairMem.read m)]
    exact hwf.length
  have hrelease : ∀ kp ∈ d.table, ∀ m₁ : Strings, kp.release m₁ = m₁.freeAll kp.owned := by
    intro kp hkp m₁
    have hvacant : kp.key.addr = none → m₁.freeAll kp.owned = some m₁ := by
      intro hkey
      rw [KeypairMem.owned_vacant (hwf.slots _ (List.mem_map_of_mem hkp)) (hb.of_slot hkp) hkey]
      rfl
    cases hk : kp.key with
    | ptr a => simp only [KeypairMem.release, hk]
    | null =>
      rw [hvacant (by rw [hk]; rfl)]
      simp only [KeypairMem.release, hk]
    | dummy =>
      rw [hvacant (by rw [hk]; rfl)]
      simp only [KeypairMem.release, hk]
  have hloop : ∀ n ≤ d.table.length,
      (List.range n).foldlM (fun m₁ i => d.table[i]?.bind (KeypairMem.release m₁)) m' =
        m'.freeAll ((d.table.take n).flatMap KeypairMem.owned) := by
    intro n
    induction n with
    | zero => exact fun _ => rfl
    | succ n ih =>
      intro hn
      have hget : d.table[n]? = some d.table[n] := List.getElem?_eq_getElem hn
      rw [List.range_succ, List.foldlM_append, ih (by omega), List.take_add_one, hget,
        List.flatMap_append, Blocks.freeAll_append]
      congr 1
      funext m₁
      simp only [List.foldlM_cons, List.foldlM_nil, hget, Option.toList_some, List.flatMap_cons,
        List.flatMap_nil, List.append_nil]
      rw [← hrelease _ (List.getElem_mem hn) m₁]
      exact bind_pure (KeypairMem.release m₁ d.table[n])
  rw [dictFree, ← hlen, hloop _ le_rfl, List.take_length, DictMem.owned]

/-- Every run can be followed by `dict_free`, which gives nothing back twice. Then exactly the
strings are allocated that the run leaked, so that none is after a run that adds no key twice. -/
theorem dict_freed (hrun : DictMem.Run ops s) :
    ∃ m' left, dictFree s.1 s.2 = some m' ∧ Blocks.Ledger m' left ∧
      left.length = leaksOf (fun _ => none) ops := by
  obtain ⟨-, lost, hacc, hlen⟩ := run_accounts hrun
  obtain ⟨m', hfree, hled, -⟩ := hacc.ledger.freeAll
  refine ⟨m', lost, ?_, hled, hlen⟩
  rw [dictFree_eq hacc.wf (backed_of_ledger hacc.ledger), hfree]

def secondAdd : Option (Strings × DictMem) :=
  (DictOp.add (.ofChars ['k']) (some (.ofChars ['w']))).applyMem (copiesAt 3 4) 4
    (firstAdd.get firstAdd_isSome)

theorem secondAdd_isSome : secondAdd.isSome = true := by decide +kernel

theorem secondAdd_run :
    DictMem.Run [.add (.ofChars ['k']) (some (.ofChars ['v'])),
      .add (.ofChars ['k']) (some (.ofChars ['w']))] (secondAdd.get secondAdd_isSome) :=
  firstAdd_run.snoc ⟨copiesAt 3 4, 4, ⟨rfl, rfl, fun _ => rfl⟩, freshAt,
    (Option.some_get secondAdd_isSome).symm⟩

/-- The copies of the first `dict_add` stay allocated. -/
theorem dict_freed_twice : ∃ s m' left,
    DictMem.Run [.add (.ofChars ['k']) (some (.ofChars ['v'])),
      .add (.ofChars ['k']) (some (.ofChars ['w']))] s ∧
      dictFree s.1 s.2 = some m' ∧ Blocks.Ledger m' left ∧ left.length = 2 := by
  obtain ⟨m', left, hfree, hled, hlen⟩ := dict_freed secondAdd_run
  exact ⟨_, m', left, secondAdd_run, hfree, hled, hlen.trans (by decide)⟩

end Runs

end JailFs
