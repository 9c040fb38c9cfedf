import StackVault.Types

/-! The string-keyed hash table of `clear_stack/hash.c`. The hash of a key starts from a local variable
    that the function never sets; what a call finds there, and which of its `malloc` calls succeed, are
    arguments of the model. -/

namespace StackVault

/-- The bytes of a NUL-terminated string, without the terminator. -/
structure CString where
  bytes : List Byte
  no_nul : 0 ∉ bytes
  deriving DecidableEq, Repr

def CString.strlen (s : CString) : Nat := s.bytes.length

/-- `strcmp`, on bytes as `unsigned char`. -/
def strcmpBytes : List Byte → List Byte → Int
  | [], [] => 0
  | [], b :: _ => -b.toNat
  | a :: _, [] => a.toNat
  | a :: s, b :: t => if a = b then strcmpBytes s t else a.toNat - b.toNat

def strcmp (s t : CString) : Int := strcmpBytes s.bytes t.bytes

/-- What a call finds: the value of the local variable `hashval` of `htHash`, and the outcome of each of its
    allocations. -/
structure HashEnv where
  hashval : BitVec 64
  malloc : Nat → Bool

/-- `struct htEntry`, with the bytes its value points to. The links are the order of a list. -/
structure HtEntry where
  key : CString
  value : List Byte
  deriving DecidableEq, Repr

/-- `struct hashtable`: the chain of each bin below `size`. -/
structure Hashtable where
  size : Nat
  table : Nat → List HtEntry

def Hashtable.put (ht : Hashtable) (bin : Nat) (chain : List HtEntry) : Hashtable :=
  { ht with table := fun b => if b = bin then chain else ht.table b }

/-- The loop of `htHash`, for at most `fuel` tests of its condition. `char` is signed, and `i` has 32 bits. -/
def htHashLoop (key : CString) : Nat → BitVec 64 → BitVec 32 → Option (BitVec 64)
  | 0, _, _ => none
  | fuel + 1, hashval, i =>
    if h : hashval < BitVec.allOnes 64 ∧ i.toNat < key.strlen then
      htHashLoop key fuel ((hashval <<< 8) + (key.bytes.get ⟨i.toNat, h.2⟩).signExtend 64) (i + 1)
    else some hashval

def htHash (fuel : Nat) (hashval : BitVec 64) (key : CString) (size : Nat) : Option Nat :=
  (htHashLoop key fuel hashval 0).map fun hashval => hashval.toNat % size

def htNewpair (malloc : Nat → Bool) (key : CString) (value : List Byte) : Option HtEntry :=
  if malloc 0 ∧ malloc 1 ∧ malloc 2 then some { key, value } else none

def htCreate (malloc : Nat → Bool) (size : Int) : Option Hashtable :=
  if size < 1 then none
  else if malloc 0 ∧ malloc 1 then some { size := size.toNat, table := fun _ => [] }
  else none

/-- The test of the two loops that walk a chain. -/
def past (key : CString) (next : HtEntry) : Bool := 0 < strcmp key next.key

/-- The chain after `htSet`, `last` being the entries that its loop has walked past. A pair that was not
    allocated is followed all the same, except at the end of a chain. -/
def htSetChain (malloc : Nat → Bool) (key : CString) (value : List Byte) (last : List HtEntry) :
    List HtEntry → Except Fault (List HtEntry)
  | [] => match htNewpair malloc key value with
    | none => if last.isEmpty then .error .nullDeref else .ok last
    | some newpair => .ok (last ++ [newpair])
  | next :: rest =>
    if strcmp key next.key = 0 then
      if malloc 0 then .ok (last ++ { next with value } :: rest) else .error .nullDeref
    else match htNewpair malloc key value with
      | none => .error .nullDeref
      | some newpair => .ok (last ++ newpair :: next :: rest)

/-- `none` while the loop of `htHash` has not ended within `fuel` tests. -/
def htSet (env : HashEnv) (fuel : Nat) (key : CString) (value : List Byte) (ht : Hashtable) :
    Option (Except Fault Hashtable) :=
  (htHash fuel env.hashval key ht.size).map fun bin =>
    (htSetChain env.malloc key value ((ht.table bin).takeWhile (past key)) ((ht.table bin).dropWhile (past key))).map
      (ht.put bin)

def htGet (hashval : BitVec 64) (fuel : Nat) (key : CString) (ht : Hashtable) : Option (Option (List Byte)) :=
  (htHash fuel hashval key ht.size).map fun bin =>
    match (ht.table bin).dropWhile (past key) with
    | [] => none
    | pair :: _ => if strcmp key pair.key ≠ 0 then none else some pair.value

end StackVault
