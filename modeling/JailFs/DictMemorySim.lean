import JailFs.DictLoad
import JailFs.DictMemory

/-!
# The dictionary in memory refines the dictionary

A call on a `DictMem` whose strings are all in the books answers as the call on the `Dict` that is
read from it. A rehash moves the pointers and touches no string; a copying `dict_add_p` adds its
copies to what the table points to and drops the pointers that were in the slot.
-/

namespace JailFs

variable {m m' : Strings} {d d' : DictMem} {kp slot slot' : KeypairMem} {e : DictMemEnv} {a : Addr}

theorem KeypairMem.mem_owned_key (h : kp.key = .ptr a) : a ∈ kp.owned := by
  simp [KeypairMem.owned, KeyField.addr, h]

theorem KeypairMem.mem_owned_val (h : kp.val = some a) : a ∈ kp.owned := by
  simp [KeypairMem.owned, h]

/-- A slot reads the same in two memories that agree on what it points to. -/
theorem KeypairMem.read_congr (h : ∀ x ∈ kp.owned, m' x = m x) : kp.read m' = kp.read m := by
  have hkey : kp.key.read m' = kp.key.read m := by
    cases hk : kp.key with
    | null => rfl
    | dummy => rfl
    | ptr x => rw [KeyField.read, KeyField.read, h x (mem_owned_key hk)]
  have hval : kp.val.bind m' = kp.val.bind m := by
    cases hv : kp.val with
    | none => rfl
    | some x => exact h x (mem_owned_val hv)
  rw [KeypairMem.read, KeypairMem.read, hkey, hval]

namespace DictMem

theorem read_congr (h : ∀ x ∈ d.owned, m' x = m x) : d.read m' = d.read m := by
  have htable : d.table.map (KeypairMem.read m') = d.table.map (KeypairMem.read m) :=
    List.map_congr_left fun kp hkp =>
      KeypairMem.read_congr fun x hx => h x (List.mem_flatMap.mpr ⟨kp, hkp, hx⟩)
  rw [DictMem.read, DictMem.read, htable]

theorem slot_read (m : Strings) (d : DictMem) (i : UInt32) :
    (d.read m).slot i = d.table[i.toNat]?.map (KeypairMem.read m) := List.getElem?_map ..

theorem slot_read_some {i : UInt32} (hs : d.table[i.toNat]? = some slot) :
    (d.read m).slot i = some (slot.read m) := by
  rw [slot_read, hs]
  rfl

@[simp] theorem put_read (m : Strings) (d : DictMem) (i : UInt32) (slot : KeypairMem) :
    (d.put i slot).read m = (d.read m).put i (slot.read m) := by
  simp only [DictMem.put, DictMem.read, Dict.put, List.map_set]

@[simp] theorem needsResize_read (m : Strings) (d : DictMem) :
    (d.read m).needsResize = d.needsResize := rfl

/-- Every pointer of the table is to a string that is allocated. -/
def Backed (m : Strings) (d : DictMem) : Prop := ∀ x ∈ d.owned, ∃ s, m x = some s

theorem Backed.of_slot (h : d.Backed m) (hkp : kp ∈ d.table) : ∀ x ∈ kp.owned, ∃ s, m x = some s :=
  fun x hx => h x (List.mem_flatMap.mpr ⟨kp, hkp, hx⟩)

end DictMem

theorem owned_set {table : List KeypairMem} {n : ℕ} (hn : table[n]? = some slot)
    (slot' : KeypairMem) :
    ((table.set n slot').flatMap KeypairMem.owned ++ slot.owned).Perm
      (slot'.owned ++ table.flatMap KeypairMem.owned) := by
  induction table generalizing n with
  | nil => cases hn
  | cons kp table ih =>
    cases n with
    | zero =>
      cases hn
      rw [List.set_cons_zero, List.flatMap_cons, List.flatMap_cons, List.append_assoc]
      exact (List.perm_append_comm).append_left _
    | succ n =>
      rw [List.set_cons_succ, List.flatMap_cons, List.flatMap_cons, List.append_assoc]
      exact ((ih hn).append_left _).trans (List.perm_append_comm_assoc ..)

theorem KeypairMem.owned_vacant (hok : (kp.read m).Ok) (hb : ∀ x ∈ kp.owned, ∃ s, m x = some s)
    (hkey : kp.key.addr = none) : kp.owned = [] := by
  have hnone : kp.val = none := by
    have hval : kp.val.bind m = none := by
      cases hk : kp.key with
      | null => simpa only [Keypair.Ok, KeypairMem.read, KeyField.read, hk] using hok
      | dummy => simpa only [Keypair.Ok, KeypairMem.read, KeyField.read, hk] using hok
      | ptr x => rw [hk] at hkey; cases hkey
    cases hv : kp.val with
    | none => rfl
    | some x =>
      obtain ⟨s, hs⟩ := hb x (mem_owned_val hv)
      rw [hv] at hval
      change m x = none at hval
      rw [hs] at hval
      cases hval
  rw [KeypairMem.owned, hkey, hnone]
  rfl

section Store

variable {blob : Option Addr} {ts : ℤ} {hash : UInt32} {s : CString} {v : Option Addr}
  {val : Option CString}

theorem store_moved (e : DictMemEnv) (slot : KeypairMem) (blob : Option Addr) (ts : ℤ)
    (hash : UInt32) (v : Option Addr) (hs : m a = some s) :
    ∃ slot', slot.store e m (.moved a v) blob ts hash = (m, slot', true) ∧
      (slot.read m).store e.env s (v.bind m) blob ts false hash = (slot'.read m, true) ∧
      slot'.owned = a :: v.toList := by
  refine ⟨_, rfl, ?_, rfl⟩
  simp only [Keypair.store, KeypairMem.read, KeyField.read, hs]
  rfl

/-- Where the copies of a key and of a value that may be `NULL` are. -/
def DictMemEnv.copies (e : DictMemEnv) (val : Option CString) : List Addr :=
  e.keyAt.toList ++ if val.isSome then e.valAt.toList else []

/-- The pointers that a copying store overwrites. -/
def KeypairMem.dropped (slot : KeypairMem) (val : Option CString) : List Addr :=
  slot.key.addr.toList ++ if val.isSome then slot.val.toList else []

theorem store_copied (henv : e.env.NoFail) (hfresh : e.Fresh m) (slot : KeypairMem)
    (hb : ∀ x ∈ slot.owned, ∃ s, m x = some s) (key : CString) (val : Option CString)
    (blob : Option Addr) (ts : ℤ) (hash : UInt32) {l : List Addr} (hl : Blocks.Ledger m l) :
    ∃ m' slot', slot.store e m (.copied key val) blob ts hash = (m', slot', true) ∧
      (slot.read m).store e.env key val blob ts true hash = (slot'.read m', true) ∧
      (∀ x ∈ l, m' x = m x) ∧ Blocks.Ledger m' (e.copies val ++ l) ∧
      (slot'.owned ++ slot.dropped val).Perm (e.copies val ++ slot.owned) := by
  obtain ⟨a, ha⟩ : ∃ a, e.keyAt = some a := Option.isSome_iff_exists.mp henv.dupKey
  obtain ⟨b, hbv⟩ : ∃ b, e.valAt = some b := Option.isSome_iff_exists.mp henv.dupVal
  have hma : m a = none := hfresh.key a ha
  have hkeep : ∀ x ∈ l, m.alloc a key x = m x := by
    intro x hx
    apply Blocks.alloc_of_ne
    rintro rfl
    exact hl.not_mem hma hx
  have hlive : (KeyField.ptr a).read (m.alloc a key) = .live key := by
    rw [KeyField.read, Blocks.alloc_self]
  cases val with
  | none =>
    have hval : slot.val.bind (m.alloc a key) = slot.val.bind m := by
      cases hv : slot.val with
      | none => rfl
      | some x =>
        obtain ⟨s, hs⟩ := hb x (KeypairMem.mem_owned_val hv)
        apply Blocks.alloc_of_ne
        rintro rfl
        rw [hma] at hs
        cases hs
    refine ⟨m.alloc a key, _, by simp only [KeypairMem.store, ha]; rfl, ?_, hkeep, ?_, ?_⟩
    · simp only [Keypair.store, KeypairMem.read, hlive, hval, henv.dupKey, if_true]
      rfl
    · simpa [DictMemEnv.copies, ha] using hl.alloc hma key
    · simpa [DictMemEnv.copies, ha, KeypairMem.owned, KeypairMem.dropped, KeyField.addr] using
        List.perm_append_comm
  | some v =>
    have hne : a ≠ b := by
      rintro rfl
      exact hfresh.apart a ha hbv
    have hmb : m.alloc a key b = none := by
      rw [Blocks.alloc_of_ne hne.symm]
      exact hfresh.val b hbv
    have hled : Blocks.Ledger ((m.alloc a key).alloc b v) (b :: a :: l) :=
      (hl.alloc hma key).alloc hmb v
    have hlive' : (KeyField.ptr a).read ((m.alloc a key).alloc b v) = .live key := by
      rw [KeyField.read, Blocks.alloc_of_ne hne, Blocks.alloc_self]
    have hval : (some b : Option Addr).bind ((m.alloc a key).alloc b v) = some v :=
      Blocks.alloc_self
    refine ⟨(m.alloc a key).alloc b v, _, by simp only [KeypairMem.store, ha, hbv]; rfl, ?_, ?_, ?_,
      ?_⟩
    · simp only [Keypair.store, KeypairMem.read, hlive', hval, henv.dupKey, henv.dupVal, if_true]
      rfl
    · intro x hx
      rw [Blocks.alloc_of_ne, hkeep x hx]
      rintro rfl
      exact hl.not_mem (hfresh.val x hbv) hx
    · simpa [DictMemEnv.copies, ha, hbv] using hled.perm (List.Perm.swap ..)
    · simp [DictMemEnv.copies, ha, hbv, KeypairMem.owned, KeypairMem.dropped, KeyField.addr]

end Store

namespace DictMem

open Dict

/-- A call in memory and the call on the dictionary that is read from memory agree: both do not
return, or both do, with the same answer. The strings are as before, and `l` names those of the new
table. -/
inductive Agrees (m : Strings) (l : List Addr) :
    Option (Strings × DictMem × ℤ) → Option (Dict × ℤ) → Prop
  | none : Agrees m l none none
  | some (d : DictMem) (rc : ℤ) (owned : d.owned.Perm l) :
      Agrees m l (some (m, d, rc)) (some (d.read m, rc))

theorem Agrees.perm {l l' : List Addr} {x : Option (Strings × DictMem × ℤ)}
    {y : Option (Dict × ℤ)} (h : Agrees m l x y) (hp : l.Perm l') : Agrees m l' x y := by
  cases h with
  | none => exact .none
  | some d rc howned => exact .some d rc (howned.trans hp)

/-- A `dict_add_p` that stores the pointers it is given agrees with the one of the dictionary that
is read from memory, for keys that are not there yet. -/
def Moves (m : Strings) (add : Strings → DictMem → Source → ℤ → Option (Strings × DictMem × ℤ))
    (add' : Dict → CString → Option CString → ℤ → Option (Dict × ℤ)) : Prop :=
  ∀ d a v s ts, (d.read m).WF → d.Backed m → m a = some s → (∀ x ∈ v, ∃ t, m x = some t) →
    (d.read m).toMap s = none →
      Agrees m (a :: v.toList ++ d.owned) (add m d (.moved a v) ts)
        (add' (d.read m) s (v.bind m) ts)

theorem Backed.perm {l : List Addr} (h : d.Backed m) (hl : ∀ x ∈ l, ∃ s, m x = some s)
    (hp : d'.owned.Perm (l ++ d.owned)) : d'.Backed m := by
  intro x hx
  rcases List.mem_append.mp (hp.mem_iff.mp hx) with hx | hx
  · exact hl x hx
  · exact h x hx

section Resize

variable {add : Strings → DictMem → Source → ℤ → Option (Strings × DictMem × ℤ)}
  {add' : Dict → CString → Option CString → ℤ → Option (Dict × ℤ)}

theorem rehash_sim (hmoves : Moves m add add') (hadd : AddsKeys add') (table : List KeypairMem)
    (hwf : (d.read m).WF) (hb : d.Backed m)
    (htable : ∀ kp ∈ table, (kp.read m).Ok ∧ ∀ x ∈ kp.owned, ∃ s, m x = some s)
    (hdist : KeysDistinct (table.map (KeypairMem.read m)))
    (hnew : ∀ kp ∈ table, ∀ key, (kp.read m).holds key → (d.read m).toMap key = none) :
    Agrees m (table.flatMap KeypairMem.owned ++ d.owned)
      ((rehash add table m d).map fun r => (r.1, r.2, 0))
      ((Dict.rehash add' (table.map (KeypairMem.read m)) (d.read m)).map fun d => (d, 0)) := by
  induction table generalizing d with
  | nil => exact .some d 0 (.refl _)
  | cons kp table ih =>
    have htail : KeysDistinct (table.map (KeypairMem.read m)) := (List.pairwise_cons.mp hdist).2
    obtain ⟨⟨hok, hlive⟩, htable'⟩ := List.forall_mem_cons.mp htable
    obtain ⟨hnewkp, hnew'⟩ := List.forall_mem_cons.mp hnew
    rw [List.map_cons, Dict.rehash, rehash]
    cases hk : kp.key with
    | null =>
      have hnone := KeypairMem.owned_vacant hok hlive (by rw [hk]; rfl)
      simp only [KeypairMem.read, KeyField.read, hk, List.flatMap_cons, hnone]
      exact ih hwf hb htable' htail hnew'
    | dummy =>
      have hnone := KeypairMem.owned_vacant hok hlive (by rw [hk]; rfl)
      simp only [KeypairMem.read, KeyField.read, hk, List.flatMap_cons, hnone]
      exact ih hwf hb htable' htail hnew'
    | ptr a =>
      obtain ⟨s, hs⟩ := hlive a (KeypairMem.mem_owned_key hk)
      have hkey : (kp.read m).key = .live s := by
        simp only [KeypairMem.read, KeyField.read, hk, hs]
      have hholds : (kp.read m).holds s := Keypair.holds_iff.mpr hkey
      have hval : ∀ x ∈ kp.val, ∃ t, m x = some t := fun x hx =>
        hlive x (KeypairMem.mem_owned_val hx)
      have hcall : Agrees m (a :: kp.val.toList ++ d.owned) (add m d (.moved a kp.val) kp.ts)
          (add' (d.read m) s (kp.read m).val (kp.read m).ts) :=
        hmoves d a kp.val s kp.ts hwf hb hs hval (hnewkp s hholds)
      simp only [hkey]
      generalize add m d (.moved a kp.val) kp.ts = x at hcall ⊢
      generalize ha : add' (d.read m) s (kp.read m).val (kp.read m).ts = y at hcall ⊢
      cases hcall with
      | none => exact .none
      | some d₁ rc hp₁ =>
        obtain ⟨hwf₁, hmap₁⟩ := hadd _ _ _ _ _ _ hwf ha
        have howned : kp.owned = a :: kp.val.toList := by
          rw [KeypairMem.owned, hk]
          rfl
        rw [← howned] at hp₁
        have hnew₁ : ∀ kp' ∈ table, ∀ key, (kp'.read m).holds key →
            (d₁.read m).toMap key = none := by
          intro kp' hkp' key hholds'
          have hne : key ≠ s := by
            rintro rfl
            exact (List.pairwise_cons.mp hdist).1 _ (List.mem_map_of_mem hkp') key hholds hholds'
          rw [hmap₁, Function.update_of_ne hne]
          exact hnew' kp' hkp' key hholds'
        apply (ih hwf₁ (hb.perm hlive hp₁) htable' htail hnew₁).perm
        rw [List.flatMap_cons, List.append_assoc]
        exact (hp₁.append_left _).trans (List.perm_append_comm_assoc ..)

theorem read_zero (m : Strings) (size : UInt32) :
    (⟨0, 0, size, List.replicate size.toNat KeypairMem.zero⟩ : DictMem).read m =
      ⟨0, 0, size, List.replicate size.toNat Keypair.zero⟩ := by
  rw [DictMem.read, List.map_replicate]
  rfl

theorem owned_zero (fill used size : UInt32) (n : ℕ) :
    (⟨fill, used, size, List.replicate n KeypairMem.zero⟩ : DictMem).owned = [] := by
  rw [DictMem.owned, List.flatMap_eq_nil_iff]
  intro kp hkp
  rw [List.eq_of_mem_replicate hkp]
  rfl

theorem resize_sim (henv : e.env.NoFail) (hmoves : Moves m add add') (hadd : AddsKeys add')
    (fuel : ℕ) (hwf : (d.read m).WF) (hb : d.Backed m) :
    Agrees m d.owned (resize e add fuel m d) ((d.read m).resize e.env add' fuel) := by
  have hbound : (if d.size > DICT_BIGSZ then 2 else 4) * d.used =
      (d.read m).resizeFactor * (d.read m).used := rfl
  have hsize : (d.read m).size = d.size := rfl
  rw [Dict.resize, ← hbound, hsize]
  simp only [resize]
  generalize (if d.size > DICT_BIGSZ then (2 : UInt32) else 4) * d.used = bound
  cases hg : growLoop bound fuel d.size with
  | none => exact .none
  | some newsize =>
    have hcalloc : e.calloc newsize = true := henv.calloc newsize
    simp only [hcalloc, henv.calloc, if_true]
    by_cases heq : newsize = d.size
    · rw [if_pos heq, if_pos heq]
      exact .some d 0 (.refl _)
    · rw [if_neg heq, if_neg heq, ← read_zero m newsize]
      have hzero : (⟨0, 0, newsize, List.replicate newsize.toNat KeypairMem.zero⟩ : DictMem).owned =
          [] := owned_zero ..
      have hrehash := rehash_sim
        (d := ⟨0, 0, newsize, List.replicate newsize.toNat KeypairMem.zero⟩) hmoves hadd d.table
        (by rw [read_zero]; exact wf_zero (growLoop_isTableSize hwf.size hg))
        (by intro x hx; rw [hzero] at hx; cases hx)
        (fun kp hkp => ⟨hwf.slots _ (List.mem_map_of_mem hkp), hb.of_slot hkp⟩)
        hwf.keysDistinct (fun kp hkp key hkey => by rw [read_zero, toMap, tableMap_zero])
      rwa [hzero, List.append_nil] at hrehash

end Resize

section Add

theorem addsKeys_addP {env : DictEnv} (henv : env.NoFail) (fuel : ℕ) :
    AddsKeys fun d key val ts => Dict.addP env fuel d (some key) val none ts false := by
  intro d key val ts d' rc hd hr
  have hspec := addP_spec henv hd hr
  exact ⟨hspec.2.1, by simpa using hspec.2.2⟩

variable {key : CString} {val : Option CString} {blob : Option Addr} {ts : ℤ} {fuel : ℕ}
  {i : UInt32}

theorem addP_stored (src : Source) (henv : e.env.NoFail)
    (hmoves : Moves m' (fun m d src ts => addP e fuel m d src none ts)
      (fun d key val ts => Dict.addP e.env fuel d (some key) val none ts false))
    (hkey : src.key m = some key) (hl : (d.read m).lookup key (dictHash key) fuel = some i)
    (hs : d.table[i.toNat]? = some slot)
    (hstore : slot.store e m src blob ts (dictHash key) = (m', slot', true))
    (hstore' : (slot.read m).store e.env key (src.val m) blob ts src.copy (dictHash key) =
      (slot'.read m', true))
    (hread : d.read m' = d.read m) (hwf : ((d.put i slot').read m').WF)
    (hb : (d.put i slot').Backed m') :
    Agrees m' (d.put i slot').owned (addP e (fuel + 1) m d src blob ts)
      ((d.read m).addP e.env (fuel + 1) (some key) (src.val m) blob ts src.copy) := by
  have hslot := slot_read_some (m := m) hs
  have hput : (d.read m).put i (slot'.read m') = (d.put i slot').read m' := by
    rw [put_read, hread]
  rw [Dict.addP, addP]
  simp only [hkey, hl, hs, hstore, hslot, hstore', hput, needsResize_read]
  split_ifs
  · have hresize := resize_sim henv hmoves (addsKeys_addP henv fuel) fuel hwf hb
    generalize resize e (fun m d src ts => addP e fuel m d src none ts) fuel m'
      (d.put i slot') = x at hresize ⊢
    generalize ((d.put i slot').read m').resize e.env
      (fun d key val ts => Dict.addP e.env fuel d (some key) val none ts false) fuel = y
      at hresize ⊢
    cases hresize with
    | none => exact .none
    | some d₁ rc hp => exact .some d₁ _ hp
  · exact .some _ 0 (.refl _)

/-- The slot that `dict_lookup` finds has a key of its own exactly if the key is there. -/
theorem lookup_addr (hwf : (d.read m).WF) (hb : d.Backed m)
    (hl : (d.read m).lookup key (dictHash key) fuel = some i)
    (hs : d.table[i.toNat]? = some slot) :
    slot.key.addr.isSome = ((d.read m).toMap key).isSome := by
  have hslot := slot_read_some (m := m) hs
  rw [← (hwf.lookup_slot_cases hl hslot).1]
  cases hk : slot.key with
  | null => simp [Keypair.isLive, KeypairMem.read, KeyField.read, KeyField.addr, hk]
  | dummy => simp [Keypair.isLive, KeypairMem.read, KeyField.read, KeyField.addr, hk]
  | ptr x =>
    obtain ⟨s, hx⟩ := hb.of_slot (List.mem_of_getElem? hs) x (KeypairMem.mem_owned_key hk)
    simp [Keypair.isLive, KeypairMem.read, KeyField.read, KeyField.addr, hk, hx]

theorem lookup_mem (hwf : (d.read m).WF)
    (hl : (d.read m).lookup key (dictHash key) fuel = some i) :
    ∃ slot, d.table[i.toNat]? = some slot ∧ slot ∈ d.table ∧ (slot.read m).Ok := by
  obtain ⟨-, kp, hkp⟩ := hwf.lookup_slot hl
  rw [slot_read, Option.map_eq_some_iff] at hkp
  obtain ⟨slot, hs, -⟩ := hkp
  have hmem := List.mem_of_getElem? hs
  exact ⟨slot, hs, hmem, hwf.slots _ (List.mem_map_of_mem hmem)⟩

/-- What a store makes of the dictionary that is read from memory. -/
theorem put_wf {v : Option CString} {copy : Bool} (hwf : (d.read m).WF) (henv : e.env.NoFail)
    (hl : (d.read m).lookup key (dictHash key) fuel = some i) (hread : d.read m' = d.read m)
    (hstore : (slot.read m).store e.env key v blob ts copy (dictHash key) =
      (slot'.read m', true)) : ((d.put i slot').read m').WF := by
  obtain ⟨kp, hkp, hok, hslot⟩ := store_spec henv (slot.read m) key v blob ts copy
  rw [hstore] at hkp
  cases hkp
  rw [put_read, hread]
  exact (hwf.put_spec hl hok hslot).1

/-- A `dict_add_p` that moves pointers. The induction is on the fuel, since a resize calls it. -/
theorem moves_addP (henv : e.env.NoFail) (m : Strings) (fuel : ℕ) :
    Moves m (fun m d src ts => addP e fuel m d src none ts)
      (fun d key val ts => Dict.addP e.env fuel d (some key) val none ts false) := by
  induction fuel with
  | zero => exact fun d a v s ts _ _ _ _ _ => .none
  | succ fuel ih =>
    intro d a v s ts hwf hb hs hv hnew
    cases hl : (d.read m).lookup s (dictHash s) fuel with
    | none =>
      simp only [Dict.addP, addP, Source.key, hs, hl]
      exact .none
    | some i =>
      obtain ⟨slot, hslot, hmem, hok⟩ := lookup_mem hwf hl
      obtain ⟨slot', hstore, hstore', howned⟩ := store_moved e slot none ts (dictHash s) v hs
      have hvacant : slot.owned = [] := by
        apply KeypairMem.owned_vacant hok (hb.of_slot hmem)
        have hnone := lookup_addr hwf hb hl hslot
        rw [hnew] at hnone
        exact Option.isNone_iff_eq_none.mp (by simpa using hnone)
      have hperm : (d.put i slot').owned.Perm (a :: v.toList ++ d.owned) := by
        have hset := owned_set hslot slot'
        rwa [hvacant, List.append_nil, howned] at hset
      have hlive : ∀ x ∈ a :: v.toList, ∃ t, m x = some t := by
        rw [List.forall_mem_cons]
        exact ⟨⟨s, hs⟩, fun x hx => hv x (Option.mem_toList.mp hx)⟩
      exact (addP_stored (.moved a v) henv ih hs hl hslot hstore hstore' rfl
        (put_wf hwf henv hl rfl hstore') (hb.perm hlive hperm)).perm hperm

end Add

end DictMem

end JailFs
