import StackVault.Hash
import StackVault.Lib.Links

/-! The table of `clear_stack/hash.c` as it lies in memory: the heads of the bins, and entries with links, where `Hash`
    has a list for each bin. `htSet` tells its cases apart by comparing pointers. Entries are never freed, so each is
    the number of its allocation; `htNewpair` returns none without a key. -/

namespace StackVault.Linked
open Links

/-- `struct htEntry`. -/
structure Entry where
  key : CString
  value : List Byte
  next : Option Nat

/-- `struct hashtable`, and the entries allocated so far. -/
structure Table where
  size : Nat
  table : List (Option Nat)
  entries : List Entry

def Table.deref (t : Table) : Option Nat → Except Fault Entry
  | none => .error .nullDeref
  | some i => match t.entries[i]? with
    | none => .error .outOfBounds
    | some e => .ok e

/-- Write to a member of the entry that `p` points to. -/
def Table.update (t : Table) (p : Option Nat) (f : Entry → Entry) : Except Fault Table :=
  match p with
  | none => .error .nullDeref
  | some i => match t.entries[i]? with
    | none => .error .outOfBounds
    | some e => .ok { t with entries := t.entries.set i (f e) }

def htNewpair (malloc : Nat → Bool) (key : CString) (value : List Byte) (t : Table) : Option Nat × Table :=
  if malloc 0 ∧ malloc 1 ∧ malloc 2 then
    (some t.entries.length, { t with entries := t.entries ++ [{ key, value, next := none }] })
  else (none, t)

def htCreate (malloc : Nat → Bool) (size : Int) : Option Table :=
  if size < 1 then none
  else if malloc 0 ∧ malloc 1 then some { size := size.toNat, table := List.replicate size.toNat none, entries := [] }
  else none

/-- The loop of `htSet` and `htGet` that walks a chain, for at most `fuel` tests: `last` and `next` when it ends. -/
def Table.walk (t : Table) (key : CString) :
    Nat → Option Nat → Option Nat → Option (Except Fault (Option Nat × Option Nat))
  | 0, _, _ => none
  | _ + 1, last, none => some (.ok (last, none))
  | fuel + 1, last, some next =>
    match t.deref (some next) with
    | .error f => some (.error f)
    | .ok e => if 0 < strcmp key e.key then t.walk key fuel (some next) e.next else some (.ok (last, some next))

/-- Whether `p` points to an entry with this key. -/
def Table.hasKey (t : Table) (key : CString) : Option Nat → Except Fault Bool
  | none => .ok false
  | some i => (t.deref (some i)).map fun e => strcmp key e.key = 0

/-- `htSet` after its loop. `head` is `hashtable->table[bin]`. -/
def Table.grow (t : Table) (malloc : Nat → Bool) (key : CString) (value : List Byte) (bin : Nat)
    (head last next : Option Nat) :
    Except Fault Table := do
  if ← t.hasKey key next then
    if malloc 0 then t.update next fun e => { e with value } else .error .nullDeref
  else
    let (newpair, t) := htNewpair malloc key value t
    if next = head then
      let t ← t.update newpair fun e => { e with next }
      return { t with table := t.table.set bin newpair }
    else if next = none then t.update last fun e => { e with next := newpair }
    else
      let t ← t.update newpair fun e => { e with next }
      t.update last fun e => { e with next := newpair }

/-- `none` while one of the loops has not ended within `fuel` tests. -/
def htSet (env : HashEnv) (fuel : Nat) (key : CString) (value : List Byte) (t : Table) : Option (Except Fault Table) :=
  (htHash fuel env.hashval key t.size).bind fun bin =>
    match t.table[bin]? with
    | none => some (.error .outOfBounds)
    | some head => (t.walk key fuel none head).map fun walked => do
      let (last, next) ← walked
      t.grow env.malloc key value bin head last next

def htGet (hashval : BitVec 64) (fuel : Nat) (key : CString) (t : Table) : Option (Except Fault (Option (List Byte))) :=
  (htHash fuel hashval key t.size).bind fun bin =>
    match t.table[bin]? with
    | none => some (.error .outOfBounds)
    | some head => (t.walk key fuel none head).map fun walked => do
      let (_, pair) ← walked
      if ← t.hasKey key pair then return some (← t.deref pair).value else return none

/-! ### The lists in the table -/

def Entry.pair (e : Entry) : HtEntry := { key := e.key, value := e.value }

/-- The pairs of the entries `ids`. -/
def Table.pairs (t : Table) (ids : List Nat) : List HtEntry := ids.filterMap fun i => (t.entries[i]?).map Entry.pair

/-- The table with a list for each bin. -/
def Table.view (t : Table) : Hashtable where
  size := t.size
  table bin := (follow Entry.next t.entries t.entries.length (t.table[bin]?).join).map Entry.pair

end StackVault.Linked
