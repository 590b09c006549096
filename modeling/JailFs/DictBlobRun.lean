import JailFs.DictBlob
import JailFs.History
import Mathlib.Data.Finset.Preimage

/-!
# What the dictionary answers about blobs

A run of calls with blobs is a run of the string dictionary when the blobs are erased
(`run_eraseBlobs`), and a blob in its table is the stack address of some blob call of the run. So a
lookup is right as long as no blob is added, and a blob that was just added is never found again:
`blob_contract_iff`.
-/

namespace JailFs

/-- The calls that change a dictionary with blobs, with keys that are not `NULL`. -/
inductive BlobCall
  | addBlob (key : CString) (ptr : Option Addr)
  | addBlobTs (key : CString) (ptr : Option Addr) (ts : ℤ)
  | add (key : CString) (val : Option CString)
  | del (key : CString)
  deriving DecidableEq

namespace BlobCall

/-- The dictionary after the call, if the call returns. -/
def apply (env : BlobEnv) (fuel : ℕ) (d : Dict) : BlobCall → Option Dict
  | addBlob key ptr => (d.addBlob env fuel (some key) ptr).map Prod.fst
  | addBlobTs key ptr ts => (d.addBlobTs env fuel (some key) ptr ts).map Prod.fst
  | add key val => (d.add env.toDictEnv fuel (some key) val).map Prod.fst
  | del key => (d.del (some key) fuel).map Prod.fst

/-- One call that returns, no allocation failing. -/
def Step (d : Dict) (c : BlobCall) (d' : Dict) : Prop :=
  ∃ env fuel, env.toDictEnv.NoFail ∧ c.apply env fuel d = some d'

/-- The blobs that the keys have after the call. -/
def effect (m : CString → Option (Option Addr)) : BlobCall → CString → Option (Option Addr)
  | addBlob key ptr => Function.update m key (some ptr)
  | addBlobTs key ptr _ => Function.update m key (some ptr)
  | add _ _ => m
  | del key => Function.update m key none

def toOp : BlobCall → DictOp
  | addBlob key _ => .add key none
  | addBlobTs key _ ts => .addTs key none ts
  | add key val => .add key val
  | del key => .del key

/-- The key and the pointer of a blob that is added. -/
def added : BlobCall → Option (CString × Option Addr)
  | addBlob key ptr => some (key, ptr)
  | addBlobTs key ptr _ => some (key, ptr)
  | add _ _ => none
  | del _ => none

end BlobCall

/-- The pointers that were passed in the latest blob adds of the keys, where no deletion came
after. -/
def registered (hist : List BlobCall) : CString → Option (Option Addr) :=
  hist.foldl BlobCall.effect fun _ => none

theorem registered_snoc (hist : List BlobCall) (c : BlobCall) :
    registered (hist ++ [c]) = c.effect (registered hist) := List.foldl_concat ..

/-- Every key is answered with the pointer it was given, and with the default if it has none. -/
def BlobsRight (hist : List BlobCall) (d : Dict) : Prop :=
  ∀ key defval, Fuel.Returns (d.getBlob (some key) defval) ((registered hist key).getD defval)

/-- The lookups are right after each call of the history, whatever the stack addresses. -/
def BlobContract (hist : List BlobCall) : Prop :=
  ∀ pre post d, hist = pre ++ post → Exec BlobCall.Step Dict.new pre d → BlobsRight pre d

section Run

variable {hist : List BlobCall} {c : BlobCall} {d d' : Dict} {env : BlobEnv} {fuel : ℕ} {a : Addr}

theorem map_fst_eraseResult (r : Option (Dict × ℤ)) :
    (r.map eraseResult).map Prod.fst = (r.map Prod.fst).map Dict.eraseBlobs := by
  cases r <;> rfl

theorem BlobCall.apply_eraseBlobs (env : BlobEnv) (a : Addr) (fuel : ℕ) (d : Dict) (c : BlobCall) :
    c.toOp.apply (env.withBlobAddr a) fuel d.eraseBlobs =
      (c.apply env fuel d).map Dict.eraseBlobs := by
  cases c with
  | addBlob key ptr =>
    rw [toOp, DictOp.apply, Dict.add, apply, Dict.addBlob, ← map_fst_eraseResult,
      ← Dict.addP_eraseBlobs env.toDictEnv a]
    rfl
  | addBlobTs key ptr ts =>
    rw [toOp, DictOp.apply, Dict.addTs, apply, Dict.addBlobTs, ← map_fst_eraseResult,
      ← Dict.addP_eraseBlobs env.toDictEnv a]
  | add key val =>
    rw [toOp, DictOp.apply, Dict.add, apply, Dict.add, ← map_fst_eraseResult,
      ← Dict.addP_eraseBlobs env.toDictEnv a]
    rfl
  | del key =>
    rw [toOp, DictOp.apply, apply, ← map_fst_eraseResult, ← Dict.del_eraseBlobs]

theorem DictEnv.NoFail.withBlobAddr {env : DictEnv} (h : env.NoFail) (a : Addr) :
    (env.withBlobAddr a).NoFail := ⟨h.dupKey, h.dupVal, h.calloc⟩

theorem run_eraseBlobs (hrun : Exec BlobCall.Step Dict.new hist d) :
    Dict.Run (hist.map BlobCall.toOp) d.eraseBlobs := by
  refine hrun.history_invariant (I := fun hist d =>
    Dict.Run (hist.map BlobCall.toOp) d.eraseBlobs) ?_ ?_
  · rw [Dict.eraseBlobs_new]
    exact Exec.nil _
  · rintro hist d c d' hbefore ⟨env, fuel, henv, hok⟩
    rw [List.map_append]
    refine hbefore.snoc ⟨env.withBlobAddr 0, fuel, henv.withBlobAddr 0, ?_⟩
    rw [BlobCall.apply_eraseBlobs, hok]
    rfl

/-- Where the parameter of `dict_add_p` lies makes no difference to whether a call returns. -/
theorem BlobCall.apply_isSome (env : BlobEnv) (a : Addr) (fuel : ℕ) (d : Dict) (c : BlobCall) :
    (c.apply { env with toDictEnv := env.withBlobAddr a } fuel d).isSome =
      (c.apply env fuel d).isSome := by
  have h := BlobCall.apply_eraseBlobs env a fuel d c
  have h' := BlobCall.apply_eraseBlobs { env with toDictEnv := env.withBlobAddr a } a fuel d c
  have hsame : (env.withBlobAddr a).withBlobAddr a = env.withBlobAddr a := rfl
  dsimp only at h'
  rw [hsame, h] at h'
  have hsome := congrArg Option.isSome h'
  rw [Option.isSome_map, Option.isSome_map] at hsome
  exact hsome.symm

theorem BlobCall.apply_blobsIn {S : Addr → Prop} (h : d.BlobsIn S)
    (hS : c.added.isSome → S env.blobAddr) (hok : c.apply env fuel d = some d') :
    d'.BlobsIn S := by
  cases c with
  | addBlob key ptr =>
    obtain ⟨r, hr, rfl⟩ := Option.map_eq_some_iff.mp hok
    exact Dict.addP_blobsIn h (fun _ => hS rfl) hr
  | addBlobTs key ptr ts =>
    obtain ⟨r, hr, rfl⟩ := Option.map_eq_some_iff.mp hok
    exact Dict.addP_blobsIn h (fun _ => hS rfl) hr
  | add key val =>
    obtain ⟨r, hr, rfl⟩ := Option.map_eq_some_iff.mp hok
    exact Dict.addP_blobsIn h (fun hnone => by cases hnone) hr
  | del key =>
    obtain ⟨r, hr, rfl⟩ := Option.map_eq_some_iff.mp hok
    exact Dict.del_blobsIn h hr

/-- As long as no blob is added there is none in the table, and none is registered. -/
theorem blobless_of_run (hrun : Exec BlobCall.Step Dict.new hist d)
    (hnone : ∀ c ∈ hist, c.added = none) :
    d.BlobsIn (fun _ => False) ∧ registered hist = fun _ => none := by
  induction hrun with
  | nil => exact ⟨Dict.blobsIn_new, rfl⟩
  | @snoc d₁ d₂ hist c _ hlast ih =>
    obtain ⟨hbefore, hregistered⟩ := ih fun c hc => hnone c (List.mem_append_left _ hc)
    have hc := hnone c (List.mem_append_right _ (List.mem_singleton_self c))
    obtain ⟨env, fuel, -, hok⟩ := hlast
    refine ⟨BlobCall.apply_blobsIn hbefore (fun hsome => ?_) hok, ?_⟩
    · rw [hc] at hsome
      cases hsome
    · rw [registered_snoc, hregistered]
      cases c with
      | addBlob key ptr => cases hc
      | addBlobTs key ptr ts => cases hc
      | add key val => rfl
      | del key => exact Function.update_eq_self key _

theorem exists_absent (d : Dict) : ∃ key, d.toMap key = none := by
  have hinf : Infinite CString :=
    Infinite.of_injective (fun n : ℕ => (⟨List.replicate n 1, by simp⟩ : CString)) fun m n h => by
      have hlen := congrArg CString.length h
      simpa [CString.length] using hlen
  have hlive : Function.Injective KeyPtr.live := fun _ _ h => KeyPtr.live.inj h
  obtain ⟨key, hkey⟩ := Infinite.exists_notMem_finset
    ((d.table.map Keypair.key).toFinset.preimage KeyPtr.live hlive.injOn)
  rw [Finset.mem_preimage, List.mem_toFinset] at hkey
  refine ⟨key, ?_⟩
  rw [Dict.toMap, tableMap, Option.map_eq_none_iff, List.find?_eq_none]
  intro kp hkp hholds
  apply hkey
  rw [← Keypair.holds_iff.mp hholds]
  exact List.mem_map_of_mem hkp

theorem neverUsed_of_right (hrun : Exec BlobCall.Step Dict.new hist d) (h : BlobsRight hist d) :
    ∃ kp ∈ d.table, kp.key = .null := by
  obtain ⟨hwf, -⟩ := Dict.run_wf_and_map (run_eraseBlobs hrun)
  obtain ⟨key, hkey⟩ := exists_absent d.eraseBlobs
  obtain ⟨fuel, hr⟩ := h key none
  rw [Dict.getBlob] at hr
  cases hl : d.lookup key (dictHash key) fuel with
  | none => simp [hl] at hr
  | some i =>
    rw [← Dict.lookup_eraseBlobs] at hl
    obtain ⟨kp, hkp, hnull⟩ := (hwf.lookup_terminates_iff hkey).mp ⟨i, fuel, hl⟩
    obtain ⟨kp', hkp', rfl⟩ := List.mem_map.mp hkp
    exact ⟨kp', hkp', hnull⟩

theorem right_of_blobless (hrun : Exec BlobCall.Step Dict.new hist d)
    (hnone : ∀ c ∈ hist, c.added = none) (hempty : ∃ kp ∈ d.table, kp.key = .null) :
    BlobsRight hist d := by
  obtain ⟨hblobs, hregistered⟩ := blobless_of_run hrun hnone
  obtain ⟨hwf, -⟩ := Dict.run_wf_and_map (run_eraseBlobs hrun)
  intro key defval
  have hnull : ∃ kp ∈ d.eraseBlobs.table, kp.key = .null := by
    obtain ⟨kp, hkp, hnull⟩ := hempty
    exact ⟨kp.eraseBlob, List.mem_map_of_mem hkp, hnull⟩
  obtain ⟨i, hl⟩ := hwf.lookup_isSome key (hwf.exists_empty_iff.mpr hnull) le_rfl
  obtain ⟨-, slot, hs⟩ := hwf.lookup_slot hl
  rw [Dict.lookup_eraseBlobs] at hl
  rw [Dict.eraseBlobs_slot] at hs
  obtain ⟨kp, hkp, -⟩ := Option.map_eq_some_iff.mp hs
  have hblob : kp.blob = none := by
    cases hb : kp.blob with
    | none => rfl
    | some b => exact absurd (hblobs.of_slot hkp hb) id
  rw [hregistered]
  refine ⟨7 + d.eraseBlobs.size.toNat, ?_⟩
  simp only [Dict.getBlob, hl, hkp, Option.map_some, hblob, Option.none_or, Option.getD_none]

/-- A blob that was just added is not found: the slot has an address of the call's own frame, or
nothing. -/
theorem exists_wrong_of_added (hrun : Exec BlobCall.Step Dict.new hist d)
    (hnone : ∀ c ∈ hist, c.added = none) (hstep : c.Step d d') {key : CString} {ptr : Option Addr}
    (hadded : c.added = some (key, ptr)) :
    ∃ d'', c.Step d d'' ∧ ¬ BlobsRight (hist ++ [c]) d'' := by
  obtain ⟨env, fuel, henv, hok⟩ := hstep
  obtain ⟨b, hb⟩ : ∃ b, some b ≠ ptr := by
    cases ptr with
    | none => exact ⟨0, Option.some_ne_none 0⟩
    | some p => exact ⟨p + 1, fun h => absurd (Option.some.inj h) (Nat.succ_ne_self p)⟩
  have hsome := BlobCall.apply_isSome env b fuel d c
  rw [hok] at hsome
  obtain ⟨d'', hok'⟩ := Option.isSome_iff_exists.mp hsome
  refine ⟨d'', ⟨_, fuel, henv.withBlobAddr b, hok'⟩, fun hright => ?_⟩
  have hblobs : d''.BlobsIn (· = b) :=
    BlobCall.apply_blobsIn (fun kp hkp p hp => ((blobless_of_run hrun hnone).1 kp hkp p hp).elim)
      (fun _ => rfl) hok'
  have hregistered : registered (hist ++ [c]) key = some ptr := by
    rw [registered_snoc]
    cases c with
    | addBlob k p =>
      cases hadded
      exact Function.update_self ..
    | addBlobTs k p ts =>
      cases hadded
      exact Function.update_self ..
    | add k v => cases hadded
    | del k => cases hadded
  obtain ⟨fuel', hr⟩ := hright key (some b)
  rw [hregistered, Option.getD_some] at hr
  rcases hblobs.getBlob hr with hdefault | ⟨b', rfl, hfound⟩
  · exact hb hdefault.symm
  · exact hb hfound.symm

theorem added_none_of_contract (hrun : Exec BlobCall.Step Dict.new hist d)
    (h : BlobContract hist) : ∀ c ∈ hist, c.added = none := by
  induction hrun with
  | nil => exact fun c hc => absurd hc List.not_mem_nil
  | @snoc d₁ d₂ hist c hbefore hlast ih =>
    have hnone : ∀ c ∈ hist, c.added = none :=
      ih fun pre post d heq => h pre (post ++ [c]) d (by rw [heq, List.append_assoc])
    intro c' hc'
    rcases List.mem_append.mp hc' with hc' | hc'
    · exact hnone c' hc'
    · rw [List.mem_singleton.mp hc']
      cases hadded : c.added with
      | none => rfl
      | some kp =>
        obtain ⟨d'', hstep, hwrong⟩ := exists_wrong_of_added hbefore hnone hlast hadded
        exact absurd (h (hist ++ [c]) [] d'' (List.append_nil _).symm (hbefore.snoc hstep)) hwrong

/-- Along calls that return, the lookups are right exactly as long as no blob is added and a
never-used slot is left to end them. -/
theorem blob_contract_iff (hrun : Exec BlobCall.Step Dict.new hist d) :
    BlobContract hist ↔ (∀ c ∈ hist, c.added = none) ∧
      ∀ pre post d', hist = pre ++ post → Exec BlobCall.Step Dict.new pre d' →
        ∃ kp ∈ d'.table, kp.key = .null := by
  constructor
  · intro h
    exact ⟨added_none_of_contract hrun h,
      fun pre post d' heq hpre => neverUsed_of_right hpre (h pre post d' heq hpre)⟩
  · rintro ⟨hnone, hempty⟩ pre post d' heq hpre
    exact right_of_blobless hpre (fun c hc => hnone c (heq ▸ List.mem_append_left post hc))
      (hempty pre post d' heq hpre)

end Run

section OneBlob

/-- The pointer 5 is stored under `a`. -/
def addA : List BlobCall := [.addBlob (.ofChars ['a']) (some 5)]

theorem addA_run : ∃ d, Exec BlobCall.Step Dict.new addA d := by
  obtain ⟨d, hadd, -⟩ := Dict.ready_new.addP_returns DictEnv.plain_noFail (le_refl (2 ^ 32))
    (.ofChars ['a']) none (some 0) 1 true
  refine ⟨d, Exec.single ⟨⟨DictEnv.plain, 0⟩, 2 ^ 32, DictEnv.plain_noFail, ?_⟩⟩
  rw [BlobCall.apply, Dict.addBlob]
  change (Dict.new.addP DictEnv.plain (2 ^ 32) _ none (some 0) 1 true).map Prod.fst = some d
  rw [hadd]
  rfl

theorem blob_contract_iff_addA : BlobContract addA ↔ (∀ c ∈ addA, c.added = none) ∧
    ∀ pre post d', addA = pre ++ post → Exec BlobCall.Step Dict.new pre d' →
      ∃ kp ∈ d'.table, kp.key = .null := by
  obtain ⟨d, hrun⟩ := addA_run
  exact blob_contract_iff hrun

/-- The pointer is not found. -/
theorem blob_contract_fails : ¬ BlobContract addA := by
  intro h
  obtain ⟨d, hrun⟩ := addA_run
  have hadded := added_none_of_contract hrun h _ (List.mem_singleton_self _)
  cases hadded

end OneBlob

end JailFs
