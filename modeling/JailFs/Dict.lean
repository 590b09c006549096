import JailFs.CString
import JailFs.CInt
import JailFs.Exec

/-!
# The string dictionary of `lsd/dict.c`

An open-addressing table of key/value slots after the Python dictionary. Deleted slots keep the
key `DUMMY_PTR`, the table grows when `fill` reaches two thirds of `size`, and a grown table is
filled again from the old one. `unsigned` is `UInt32`, a slot is named by its index, and a `NULL`
table is the empty list, so that reading a slot of it faults.

A function that may not come back takes a fuel and answers `none` when it runs out; `none` also
stands for a fault (a read of freed memory, a double free, an index outside the table). The
dictionary itself is never `NULL`: with a `NULL` dictionary every function returns at once.
-/

namespace JailFs

abbrev Addr := ℕ

def DICT_MIN_SZ : UInt32 := 8

def PERTURB_SHIFT : UInt32 := 5

def DICT_BIGSZ : UInt32 := 64000

/-- The `key` pointer of a slot: `NULL`, `DUMMY_PTR`, a string of the table's own, or a pointer
to memory that was given back. -/
inductive KeyPtr
  | null
  | dummy
  | live (s : CString)
  | freed
  deriving DecidableEq

structure Keypair where
  key : KeyPtr
  val : Option CString
  blob : Option Addr
  ts : ℤ
  hash : UInt32
  deriving DecidableEq

/-- A slot as `calloc` leaves it. -/
def Keypair.zero : Keypair := ⟨.null, none, none, 0, 0⟩

structure Dict where
  fill : UInt32
  used : UInt32
  size : UInt32
  table : List Keypair
  deriving DecidableEq

/-- What the C library answers during one call: the clock, which allocations succeed, and the
stack address of the parameter `blob` of `dict_add_p`. -/
structure DictEnv where
  now : ℤ
  dupKey : Bool
  dupVal : Bool
  calloc : UInt32 → Bool
  blobAddr : Addr

/-- No allocation fails. -/
structure DictEnv.NoFail (env : DictEnv) : Prop where
  dupKey : env.dupKey = true
  dupVal : env.dupVal = true
  calloc : ∀ newsize, env.calloc newsize = true

/-- `char` is signed, so a byte from 128 on is extended with ones. -/
def charToUnsigned (c : UInt8) : UInt32 :=
  if c < 128 then c.toUInt32 else c.toUInt32 + 0xFFFFFF00

/-- `strlen` stored in an `int`. -/
def strlenInt (s : CString) : ℤ := wrapInt s.length

def dictHashDobbs (key : CString) : UInt32 :=
  let mix (hash : UInt32) (c : UInt8) : UInt32 :=
    let hash := hash + charToUnsigned c
    let hash := hash + (hash <<< 10)
    hash ^^^ (hash >>> 6)
  let hash := (key.bytes.take (strlenInt key).toNat).foldl mix 0
  let hash := hash + (hash <<< 3)
  let hash := hash ^^^ (hash >>> 11)
  hash + (hash <<< 15)

/-- `#define dict_hash dict_hash_dobbs` -/
def dictHash (key : CString) : UInt32 := dictHashDobbs key

namespace Dict

def slot (d : Dict) (i : UInt32) : Option Keypair := d.table[i.toNat]?

/-- The `for` loop of `dict_lookup`. A stored pointer that equals `key` is a string that equals
`key`, with the same hash, so the pointer test adds nothing to the two tests that remain. -/
def probeLoop (d : Dict) (key : CString) (hash : UInt32) :
    ℕ → UInt32 → UInt32 → Option UInt32 → Option UInt32
  | 0, _, _, _ => none
  | fuel + 1, i, perturb, memFreeslot =>
    let i := ((i <<< 2) + i + perturb + 1) &&& (d.size - 1)
    match d.slot i with
    | none => none
    | some ep =>
      match ep.key with
      | .null => some (memFreeslot.getD i)
      | .dummy => probeLoop d key hash fuel i (perturb >>> PERTURB_SHIFT) (memFreeslot.or (some i))
      | .live s =>
        if ep.hash = hash ∧ s = key then some i
        else probeLoop d key hash fuel i (perturb >>> PERTURB_SHIFT) memFreeslot
      | .freed =>
        -- `strcmp` reads the freed string only when the hashes agree
        if ep.hash = hash then none
        else probeLoop d key hash fuel i (perturb >>> PERTURB_SHIFT) memFreeslot

/-- The index of the slot `dict_lookup` points to. -/
def lookup (d : Dict) (key : CString) (hash : UInt32) (fuel : ℕ) : Option UInt32 :=
  let i := hash &&& (d.size - 1)
  match d.slot i with
  | none => none
  | some ep =>
    match ep.key with
    | .null => some i
    | .dummy => d.probeLoop key hash fuel i hash (some i)
    | .live s =>
      if ep.hash = hash ∧ s = key then some i else d.probeLoop key hash fuel i hash none
    | .freed => if ep.hash = hash then none else d.probeLoop key hash fuel i hash none

end Dict

/-- The stores of `dict_add_p` into the slot it found, and whether they all succeeded. A failed
`strdup` leaves the slot with a `NULL` key, or with a key it has just freed. -/
def Keypair.store (env : DictEnv) (slot : Keypair) (key : CString) (val : Option CString)
    (blob : Option Addr) (ts : ℤ) (copy : Bool) (hash : UInt32) : Keypair × Bool :=
  let finish (slot : Keypair) : Keypair × Bool :=
    ({ slot with
        blob := if blob.isSome then some env.blobAddr else slot.blob
        hash := hash
        ts := if ts ≠ 0 then ts else env.now }, true)
  if copy then
    if env.dupKey then
      match val with
      | none => finish { slot with key := .live key }
      | some v =>
        if env.dupVal then finish { slot with key := .live key, val := some v }
        else ({ slot with key := .freed, val := none }, false)
    else ({ slot with key := .null }, false)
  else finish { slot with key := .live key, val := val }

/-- `while (newsize <= bound) newsize *= 2;` -/
def growLoop (bound : UInt32) : ℕ → UInt32 → Option UInt32
  | 0, _ => none
  | fuel + 1, newsize =>
    if newsize ≤ bound then growLoop bound fuel (newsize * 2) else some newsize

namespace Dict

def resizeFactor (d : Dict) : UInt32 := if d.size > DICT_BIGSZ then 2 else 4

/-- The test at the end of `dict_add_p`. -/
def needsResize (d : Dict) : Bool := d.size * 2 ≤ 3 * d.fill

/-- The loop of `dict_resize` over the old table. The result of each `dict_add_p` is ignored. -/
def rehash (add : Dict → CString → Option CString → ℤ → Option (Dict × ℤ)) :
    List Keypair → Dict → Option Dict
  | [], d => some d
  | slot :: oldtable, d =>
    match slot.key with
    | .null => rehash add oldtable d
    | .dummy => rehash add oldtable d
    | .freed => none
    | .live s =>
      match add d s slot.val slot.ts with
      | none => none
      | some (d, _) => rehash add oldtable d

/-- `dict_resize`; `add` is the `dict_add_p` by which it fills the grown table. -/
def resize (env : DictEnv) (add : Dict → CString → Option CString → ℤ → Option (Dict × ℤ))
    (fuel : ℕ) (d : Dict) : Option (Dict × ℤ) :=
  match growLoop (d.resizeFactor * d.used) fuel d.size with
  | none => none
  | some newsize =>
    if newsize = d.size then some (d, 0)
    else if env.calloc newsize then
      let grown : Dict := ⟨0, 0, newsize, List.replicate newsize.toNat Keypair.zero⟩
      (rehash add d.table grown).map fun d => (d, 0)
    else some ({ d with table := [] }, -1)

/-- The table after a successful store, with both counters raised. -/
def put (d : Dict) (i : UInt32) (slot : Keypair) : Dict :=
  { d with table := d.table.set i.toNat slot, used := d.used + 1, fill := d.fill + 1 }

def addP (env : DictEnv) : ℕ → Dict → Option CString → Option CString → Option Addr → ℤ → Bool →
    Option (Dict × ℤ)
  | 0, _, _, _, _, _, _ => none
  | _ + 1, d, none, _, _, _, _ => some (d, -1)
  | fuel + 1, d, some key, val, blob, ts, copy =>
    let hash := dictHash key
    match d.lookup key hash fuel with
    | none => none
    | some i =>
      match d.slot i with
      | none => none
      | some slot =>
        match slot.store env key val blob ts copy hash with
        | (slot, false) => some ({ d with table := d.table.set i.toNat slot }, -1)
        | (slot, true) =>
          let d := d.put i slot
          if d.needsResize then
            match d.resize env (fun d key val ts => addP env fuel d (some key) val none ts false)
                fuel with
            | none => none
            | some (d, rc) => some (d, if rc ≠ 0 then -1 else 0)
          else some (d, 0)

def add (env : DictEnv) (fuel : ℕ) (d : Dict) (key val : Option CString) : Option (Dict × ℤ) :=
  d.addP env fuel key val none env.now true

def addTs (env : DictEnv) (fuel : ℕ) (d : Dict) (key val : Option CString) (ts : ℤ) :
    Option (Dict × ℤ) :=
  d.addP env fuel key val none ts true

/-- `dict_new`, its allocations succeeding. -/
def new : Dict := ⟨0, 0, DICT_MIN_SZ, List.replicate DICT_MIN_SZ.toNat Keypair.zero⟩

/-- `dict_lookup` never answers `NULL` to a key, so the value of the slot it found is returned
whether or not that slot holds the key. -/
def get (d : Dict) (key defval : Option CString) (fuel : ℕ) : Option (Option CString) :=
  match key with
  | none => some defval
  | some key =>
    match d.lookup key (dictHash key) fuel with
    | none => none
    | some i => (d.slot i).map Keypair.val

/-- `dict_del` turns the slot it found into a tombstone, even one that was never used. -/
def del (d : Dict) (key : Option CString) (fuel : ℕ) : Option (Dict × ℤ) :=
  match key with
  | none => some (d, -1)
  | some key =>
    match d.lookup key (dictHash key) fuel with
    | none => none
    | some i =>
      match d.slot i with
      | none => none
      | some kp =>
        if kp.key = .freed then none
        else
          let kp := { kp with key := .dummy, val := none }
          some ({ d with table := d.table.set i.toNat kp, used := d.used - 1 }, 0)

end Dict

/-- The calls of the dictionary interface, with keys that are not `NULL`. -/
inductive DictOp
  | add (key : CString) (val : Option CString)
  | addTs (key : CString) (val : Option CString) (ts : ℤ)
  | get (key : CString) (defval : Option CString)
  | del (key : CString)
  deriving DecidableEq

namespace DictOp

/-- The dictionary after the call, if the call returns. -/
def apply (env : DictEnv) (fuel : ℕ) (d : Dict) : DictOp → Option Dict
  | add key val => (d.add env fuel (some key) val).map Prod.fst
  | addTs key val ts => (d.addTs env fuel (some key) val ts).map Prod.fst
  | get key defval => (d.get (some key) defval fuel).map fun _ => d
  | del key => (d.del (some key) fuel).map Prod.fst

/-- One call that returns, no allocation failing. -/
def Step (d : Dict) (op : DictOp) (d' : Dict) : Prop :=
  ∃ env fuel, env.NoFail ∧ op.apply env fuel d = some d'

end DictOp

/-- The dictionaries that a sequence of returning calls makes from `dict_new`. -/
def Dict.Run (ops : List DictOp) (d : Dict) : Prop := Exec DictOp.Step Dict.new ops d

end JailFs
