import StackVault.Server
import StackVault.StackAreas

/-! A round of the server with everything it calls: the hash table itself, with the residue that each hash starts
    from, and `encrypt_stack` on the range of the request. `serve` has the map of the table and the call of
    `encrypt_stack` only. -/

namespace StackVault

/-- What a round meets beyond `Round`: the local variable that `htHash` finds, whether the allocations of `htSet`
    succeed, that of the areas, the page maps that can be opened, and `/dev/mem`. -/
structure Visit extends Round where
  hashval : BitVec 64
  mallocPair : Bool
  mallocAreas : Option (Fin 10 → Pages.Sarea)
  pagemap : BitVec 32 → Option Pages.Pagemap
  dev : Pages.DevMem

/-- What `main` keeps from round to round, with the table as it is, and physical memory. -/
structure Machine where
  str : Buffer
  ht : Hashtable
  phys : Pages.Physical

/-- The buffer after `recv`. It stays as it was when the call fails. -/
def Round.fill (io : Round) (str : Buffer) : Buffer :=
  match io.received with
  | none => str
  | some msg => str.recv msg

/-- One round: the machine after it, and whether it came to its reply; otherwise it has left the loop. The path of
    the page map is printed with `%d`. The return value of `encrypt_stack` is not looked at. `none` while a hash
    has not ended within `fuel` tests. -/
def serveRound (fuel : Nat) (io : Visit) (s : Machine) : Option (Except Fault (Machine × Bool)) :=
  match parseRequest io.mallocName (io.fill s.str) with
  | .error f => some (.error f)
  | .ok (r, str) =>
    if r.p.headD 0 = ch 'e' then
      if io.mallocValue then
        let value := (htvalue r.op io.padding r.rsp r.rbp).take 8
        (htSet ⟨io.hashval, fun _ => io.mallocPair⟩ fuel r.funcName value s.ht).map fun set => do
          let ht ← set
          let (_, phys) ← Pages.encryptStack io.dev io.mallocAreas (io.pagemap (r.pid.setWidth 32)) r.rsp r.rbp s.phys
          return ({ str, ht, phys }, true)
      else some (.error .nullDeref)
    else if r.p.headD 0 = ch 'd' then
      (htGet io.hashval fuel r.funcName s.ht).map fun value => .ok ({ s with str }, value.isSome)
    else some (.ok ({ s with str }, true))

end StackVault
