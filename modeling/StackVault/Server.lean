import StackVault.Hash
import Mathlib.Data.List.TakeWhile
import Mathlib.Logic.Function.Basic

/-! The encryption server of `clear_stack`: one round of the loop of `main` in `stack_encrypt_server.c`. A
    request is text in a buffer of 100 bytes that all rounds share. The string functions fault when they
    run past its end. The hash table is taken as a map from names to values, which it is in the rounds
    that `map_law_iff` describes. -/

namespace StackVault

def ch (c : Char) : Byte := BitVec.ofNat 8 c.toNat

/-- `char str[100]`. -/
structure Buffer where
  bytes : List Byte
  size : bytes.length = 100

def Buffer.set (str : Buffer) (i : Nat) (c : Byte) : Buffer := ⟨str.bytes.set i c, by rw [List.length_set, str.size]⟩

/-- What one `recv` of at most 100 bytes delivers. -/
structure Received where
  bytes : List Byte
  fits : bytes.length ≤ 100

/-- The bytes received replace the first ones; the rest stays as it was. -/
def Buffer.recv (str : Buffer) (msg : Received) : Buffer :=
  ⟨msg.bytes ++ str.bytes.drop msg.bytes.length, by
    have h := msg.fits
    rw [List.length_append, List.length_drop, str.size, Nat.add_sub_cancel' h]⟩

/-! ### The string functions -/

/-- The bytes that a token is made of, when the delimiter is a space. -/
def inToken (c : Byte) : Bool := c ≠ ch ' ' ∧ c ≠ 0

/-- `strtok(str, " ")`, from position `pos` on: the token, the string, and where the next call starts. -/
def strtok (str : Buffer) (pos : Nat) : Except Fault (Option (List Byte) × Buffer × Nat) :=
  let start := pos + ((str.bytes.drop pos).takeWhile (· = ch ' ')).length
  match str.bytes.drop start with
  | [] => .error .outOfBounds
  | c :: s =>
    if c = 0 then .ok (none, str, start)
    else
      let token := (c :: s).takeWhile inToken
      let stop := start + token.length
      match str.bytes.drop stop with
      | [] => .error .outOfBounds
      | c :: _ => if c = 0 then .ok (some token, str, stop) else .ok (some token, str.set stop 0, stop + 1)

def isspace (c : Byte) : Bool := c = ch ' ' ∨ (0x09 ≤ c ∧ c ≤ 0x0d)

def isdigit (c : Byte) : Bool := ch '0' ≤ c ∧ c ≤ ch '9'

/-- The number that the leading digits of a string denote. -/
def digitsValue (s : List Byte) : Nat := (s.takeWhile isdigit).foldl (fun v c => 10 * v + (c - ch '0').toNat) 0

/-- A `long`, with values outside its range replaced by its ends. -/
def clampLong (v : Int) : BitVec 64 := BitVec.ofInt 64 (max (-2 ^ 63) (min v (2 ^ 63 - 1)))

def atol (s : List Byte) : BitVec 64 :=
  match s.dropWhile isspace with
  | [] => 0
  | c :: rest =>
    if c = ch '-' then clampLong (-digitsValue rest)
    else if c = ch '+' then clampLong (digitsValue rest)
    else clampLong (digitsValue (c :: rest))

/-- Follow a `char *` that `strtok` returned. -/
def pointee : Option (List Byte) → Except Fault (List Byte)
  | none => .error .nullDeref
  | some p => .ok p

/-- `malloc`, `strcpy`. -/
def copyName (malloc : Bool) (p : List Byte) : Except Fault CString :=
  if malloc then .ok ⟨p.takeWhile (· ≠ 0), fun h => by simpa using List.mem_takeWhile_imp h⟩ else .error .nullDeref

/-! ### A round of the loop -/

/-- The local variables of `main` once a request has been taken apart. `p` is left at the last token. -/
structure Request where
  op : Byte
  funcName : CString
  pid : BitVec 64
  rsp : BitVec 64
  rbp : BitVec 64
  p : List Byte
  deriving DecidableEq, Repr

def parseRequest (malloc : Bool) (str : Buffer) : Except Fault (Request × Buffer) := do
  let (p, str, pos) ← strtok str 0
  let op := (← pointee p).headD 0
  let (p, str, pos) ← strtok str pos
  let funcName ← copyName malloc (← pointee p)
  let (p, str, pos) ← strtok str pos
  let pid := atol (← pointee p)
  let (p, str, pos) ← strtok str pos
  let rsp := atol (← pointee p)
  let (p, str, _) ← strtok str pos
  let p ← pointee p
  return ({ op, funcName, pid, rsp, rbp := atol p, p }, str)

/-- The bytes of an `htvalue`: `op`, seven bytes that are never set, `rsp` and `rbp`. -/
def htvalue (op : Byte) (padding : Fin 7 → Byte) (rsp rbp : BitVec 64) : List Byte :=
  [op] ++ List.ofFn padding ++ (List.ofFn fun i : Fin 8 => rsp.extractLsb' (8 * i) 8) ++
    List.ofFn fun i : Fin 8 => rbp.extractLsb' (8 * i) 8

/-- What a round meets: what `recv` delivers, nothing when it fails; which of the two allocations succeed;
    and what the second one finds between the members of `htvalue`. -/
structure Round where
  received : Option Received
  mallocName : Bool
  mallocValue : Bool
  padding : Fin 7 → Byte

/-- What `main` keeps from round to round. -/
structure Server where
  str : Buffer
  ht : CString → Option (List Byte)

/-- A round that was not cut short: the server after it, the range that `encrypt_stack` was called for,
    and whether the round came to its reply; otherwise it has left the loop. -/
structure Served where
  server : Server
  encrypted : Option (BitVec 64 × BitVec 64 × BitVec 64)
  replied : Bool

/-- One round. The failure of `recv` is only reported. -/
def serve (io : Round) (s : Server) : Except Fault Served := do
  let str := match io.received with
    | none => s.str
    | some msg => s.str.recv msg
  let (r, str) ← parseRequest io.mallocName str
  if r.p.headD 0 = ch 'e' then
    if io.mallocValue then
      -- `sizeof(htv)` is the size of the pointer.
      let value := (htvalue r.op io.padding r.rsp r.rbp).take 8
      return { server := { str, ht := Function.update s.ht r.funcName (some value) },
               encrypted := some (r.pid, r.rsp, r.rbp), replied := true }
    else .error .nullDeref
  else if r.p.headD 0 = ch 'd' then
    return { server := { s with str }, encrypted := none, replied := (s.ht r.funcName).isSome }
  else return { server := { s with str }, encrypted := none, replied := true }

end StackVault
