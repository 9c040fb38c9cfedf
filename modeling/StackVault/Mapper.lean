import StackVault.Types

/-! The symbol table (`mapper.c`). -/

namespace StackVault

/-- The name of the first symbol whose range has the address, a null pointer when there is none. The
    end of a range is computed with wrapping arithmetic. -/
def getFuncName : List Item → Addr → Option String
  | [], _ => none
  | tmp :: rest, ip => if tmp.ip ≤ ip ∧ ip < tmp.ip + tmp.size then some tmp.funcName else getFuncName rest ip

end StackVault
