import JailFs.DictMap
import JailFs.Ledger

/-!
# The strings of a dictionary in memory

`dict_add_p` keeps copies of the key and of the value that it is given, `dict_del` gives those of a
key back, `dict_resize` moves the pointers to a new table, and `dict_free` gives back what the table
points to. Here a slot has the pointers and the strings are blocks of memory. `DictMem.read` reads
the slots through the memory, which gives a `Dict`.
-/

namespace JailFs

/-- The strings that `strdup` made and nobody gave back. -/
abbrev Strings := Blocks Addr CString

inductive KeyField
  | null
  | dummy
  | ptr (a : Addr)
  deriving DecidableEq

structure KeypairMem where
  key : KeyField
  val : Option Addr
  blob : Option Addr
  ts : ℤ
  hash : UInt32
  deriving DecidableEq

structure DictMem where
  fill : UInt32
  used : UInt32
  size : UInt32
  table : List KeypairMem
  deriving DecidableEq

def KeyField.read (m : Strings) : KeyField → KeyPtr
  | .null => .null
  | .dummy => .dummy
  | .ptr a =>
    match m a with
    | some s => .live s
    | none => .freed

def KeypairMem.read (m : Strings) (kp : KeypairMem) : Keypair :=
  ⟨kp.key.read m, kp.val.bind m, kp.blob, kp.ts, kp.hash⟩

def DictMem.read (m : Strings) (d : DictMem) : Dict :=
  ⟨d.fill, d.used, d.size, d.table.map (KeypairMem.read m)⟩

def KeyField.addr : KeyField → Option Addr
  | .ptr a => some a
  | _ => none

/-- The strings that a slot points to. -/
def KeypairMem.owned (kp : KeypairMem) : List Addr := kp.key.addr.toList ++ kp.val.toList

def DictMem.owned (d : DictMem) : List Addr := d.table.flatMap KeypairMem.owned

def KeypairMem.zero : KeypairMem := ⟨.null, none, none, 0, 0⟩

/-- What the C library answers during one call, with the addresses of the two copies. -/
structure DictMemEnv where
  now : ℤ
  keyAt : Option Addr
  valAt : Option Addr
  calloc : UInt32 → Bool
  blobAddr : Addr

def DictMemEnv.env (e : DictMemEnv) : DictEnv :=
  ⟨e.now, e.keyAt.isSome, e.valAt.isSome, e.calloc, e.blobAddr⟩

/-- `strdup` answers with memory that is not in use. -/
structure DictMemEnv.Fresh (m : Strings) (e : DictMemEnv) : Prop where
  key : ∀ a, e.keyAt = some a → m a = none
  val : ∀ a, e.valAt = some a → m a = none
  apart : ∀ a, e.keyAt = some a → e.valAt ≠ some a

/-- The key and the value of a `dict_add_p`: strings that it copies, or the pointers of an old table
that it stores as they are. -/
inductive Source
  | copied (key : CString) (val : Option CString)
  | moved (key : Addr) (val : Option Addr)

namespace Source

/-- The string that `key` points to. -/
def key (m : Strings) : Source → Option CString
  | copied key _ => some key
  | moved key _ => m key

def val (m : Strings) : Source → Option CString
  | copied _ val => val
  | moved _ val => val.bind m

def copy : Source → Bool
  | copied _ _ => true
  | moved _ _ => false

end Source

/-- The stores of `dict_add_p` into the slot it found, and whether they all succeeded. -/
def KeypairMem.store (e : DictMemEnv) (m : Strings) (slot : KeypairMem) (src : Source)
    (blob : Option Addr) (ts : ℤ) (hash : UInt32) : Strings × KeypairMem × Bool :=
  let finish (slot : KeypairMem) : KeypairMem × Bool :=
    ({ slot with
        blob := if blob.isSome then some e.blobAddr else slot.blob
        hash := hash
        ts := if ts ≠ 0 then ts else e.now }, true)
  match src with
  | .moved key val => (m, finish { slot with key := .ptr key, val := val })
  | .copied key val =>
    match e.keyAt with
    | none => (m, { slot with key := .null }, false)
    | some a =>
      match val with
      | none => (m.alloc a key, finish { slot with key := .ptr a })
      | some v =>
        match e.valAt with
        | some b => ((m.alloc a key).alloc b v, finish { slot with key := .ptr a, val := some b })
        -- the copy of the key is given back and the slot still points to it
        | none => (m, { slot with key := .ptr a, val := none }, false)

namespace DictMem

def needsResize (d : DictMem) : Bool := d.size * 2 ≤ 3 * d.fill

/-- The loop of `dict_resize` over the old table. -/
def rehash (add : Strings → DictMem → Source → ℤ → Option (Strings × DictMem × ℤ)) :
    List KeypairMem → Strings → DictMem → Option (Strings × DictMem)
  | [], m, d => some (m, d)
  | slot :: oldtable, m, d =>
    match slot.key with
    | .null => rehash add oldtable m d
    | .dummy => rehash add oldtable m d
    | .ptr a =>
      match add m d (.moved a slot.val) slot.ts with
      | none => none
      | some (m, d, _) => rehash add oldtable m d

def resize (e : DictMemEnv) (add : Strings → DictMem → Source → ℤ → Option (Strings × DictMem × ℤ))
    (fuel : ℕ) (m : Strings) (d : DictMem) : Option (Strings × DictMem × ℤ) :=
  let factor : UInt32 := if d.size > DICT_BIGSZ then 2 else 4
  match growLoop (factor * d.used) fuel d.size with
  | none => none
  | some newsize =>
    if newsize = d.size then some (m, d, 0)
    else if e.calloc newsize then
      let grown : DictMem := ⟨0, 0, newsize, List.replicate newsize.toNat KeypairMem.zero⟩
      (rehash add d.table m grown).map fun (m, d) => (m, d, 0)
    else some (m, { d with table := [] }, -1)

def put (d : DictMem) (i : UInt32) (slot : KeypairMem) : DictMem :=
  { d with table := d.table.set i.toNat slot, used := d.used + 1, fill := d.fill + 1 }

/-- `dict_add_p`. `dict_lookup` reads the table through the memory. -/
def addP (e : DictMemEnv) : ℕ → Strings → DictMem → Source → Option Addr → ℤ →
    Option (Strings × DictMem × ℤ)
  | 0, _, _, _, _, _ => none
  | fuel + 1, m, d, src, blob, ts =>
    match src.key m with
    | none => none
    | some key =>
      let hash := dictHash key
      match (d.read m).lookup key hash fuel with
      | none => none
      | some i =>
        match d.table[i.toNat]? with
        | none => none
        | some slot =>
          match slot.store e m src blob ts hash with
          | (m, slot, false) => some (m, { d with table := d.table.set i.toNat slot }, -1)
          | (m, slot, true) =>
            let d := d.put i slot
            if d.needsResize then
              match resize e (fun m d src ts => addP e fuel m d src none ts) fuel m d with
              | none => none
              | some (m, d, rc) => some (m, d, if rc ≠ 0 then -1 else 0)
            else some (m, d, 0)

def new : DictMem := ⟨0, 0, DICT_MIN_SZ, List.replicate DICT_MIN_SZ.toNat KeypairMem.zero⟩

/-- `dict_get` gives a pointer to the string that the slot keeps. -/
def get (m : Strings) (d : DictMem) (key : CString) (fuel : ℕ) : Option (Option Addr) :=
  match (d.read m).lookup key (dictHash key) fuel with
  | none => none
  | some i => d.table[i.toNat]?.map KeypairMem.val

/-- `dict_del`. `mem_free` of a string that was given back is a fault. -/
def del (m : Strings) (d : DictMem) (key : CString) (fuel : ℕ) : Option (Strings × DictMem × ℤ) :=
  match (d.read m).lookup key (dictHash key) fuel with
  | none => none
  | some i =>
    match d.table[i.toNat]? with
    | none => none
    | some kp =>
      (m.freeAll kp.owned).map fun m =>
        let kp := { kp with key := .dummy, val := none }
        (m, { d with table := d.table.set i.toNat kp, used := d.used - 1 }, 0)

end DictMem

/-- What `dict_free` does with one slot: the value of a slot without a key is not given back. -/
def KeypairMem.release (m : Strings) (kp : KeypairMem) : Option Strings :=
  match kp.key with
  | .ptr _ => m.freeAll kp.owned
  | _ => some m

/-- `dict_free`, the table and the `dict` itself given back last. -/
def dictFree (m : Strings) (d : DictMem) : Option Strings :=
  (List.range d.size.toNat).foldlM (fun m i => d.table[i]?.bind (KeypairMem.release m)) m

/-- The return code of a call, or the string that `dict_get` gives, which may be `NULL`. -/
inductive DictAnswer
  | code (rc : ℤ)
  | value (v : Option CString)
  deriving DecidableEq

namespace DictOp

/-- The strings and the dictionary after the call, if it returns. -/
def applyMem (e : DictMemEnv) (fuel : ℕ) (s : Strings × DictMem) :
    DictOp → Option (Strings × DictMem)
  | add key val => (DictMem.addP e fuel s.1 s.2 (.copied key val) none e.now).map
      fun r => (r.1, r.2.1)
  | addTs key val ts => (DictMem.addP e fuel s.1 s.2 (.copied key val) none ts).map
      fun r => (r.1, r.2.1)
  | get key _ => (s.2.get s.1 key fuel).map fun _ => s
  | del key => (s.2.del s.1 key fuel).map fun r => (r.1, r.2.1)

/-- What a call answers, if it returns. -/
def answer (env : DictEnv) (fuel : ℕ) (d : Dict) : DictOp → Option DictAnswer
  | add key val => (d.add env fuel (some key) val).map fun r => .code r.2
  | addTs key val ts => (d.addTs env fuel (some key) val ts).map fun r => .code r.2
  | get key defval => (d.get (some key) defval fuel).map .value
  | del key => (d.del (some key) fuel).map fun r => .code r.2

/-- What a call answers in memory. A pointer that `dict_get` gives is read, which is a fault if the
string was given back. -/
def answerMem (e : DictMemEnv) (fuel : ℕ) (s : Strings × DictMem) : DictOp → Option DictAnswer
  | add key val => (DictMem.addP e fuel s.1 s.2 (.copied key val) none e.now).map
      fun r => .code r.2.2
  | addTs key val ts => (DictMem.addP e fuel s.1 s.2 (.copied key val) none ts).map
      fun r => .code r.2.2
  | get key _ => (s.2.get s.1 key fuel).bind fun
      | none => some (.value none)
      | some a => (s.1 a).map fun v => .value (some v)
  | del key => (s.2.del s.1 key fuel).map fun r => .code r.2.2

/-- One call that returns, no allocation failing. -/
def MemStep (s : Strings × DictMem) (op : DictOp) (s' : Strings × DictMem) : Prop :=
  ∃ e fuel, e.env.NoFail ∧ e.Fresh s.1 ∧ op.applyMem e fuel s = some s'

/-- The strings that a call leaves allocated without a pointer to them: a `dict_add` of a key that
is there overwrites the pointer to its copy, and to the old value when it has a new one. -/
def leaks (map : StringMap) : DictOp → ℕ
  | add key val | addTs key val _ =>
    match map key with
    | none => 0
    | some old => if val.isSome ∧ old.isSome then 2 else 1
  | get _ _ => 0
  | del _ => 0

end DictOp

/-- What a sequence of calls leaks, from the map it starts with. -/
def leaksOf (map : StringMap) : List DictOp → ℕ
  | [] => 0
  | op :: ops => op.leaks map + leaksOf (op.effect map) ops

/-- What the calls of a program make from `dict_new`, with no string allocated before. -/
def DictMem.Run (ops : List DictOp) (s : Strings × DictMem) : Prop :=
  Exec DictOp.MemStep (fun _ => none, DictMem.new) ops s

end JailFs
