import StackVault.Theorems.Message
import StackVault.Theorems.Table

/-! What the server does with well-formed requests. The operation is read from the first token, but the
    dispatch looks at the last one, the `rbp` of the request. A number starts neither with an `e` nor with
    a `d`, so no request is acted upon: each is answered and forgotten. -/

namespace StackVault
open Transition

/-- A decimal number, with or without a sign. -/
def IsNumber (w : List Byte) : Prop :=
  ∃ sign digits, w = sign ++ digits ∧ sign ∈ [[], [ch '-'], [ch '+']] ∧ digits ≠ [] ∧ ∀ c ∈ digits, isdigit c

/-- A request `<op> <name> <pid> <rsp> <rbp>`. -/
structure Ask where
  op : Byte
  name : CString
  pid : List Byte
  rsp : List Byte
  rbp : List Byte

structure Ask.WellFormed (a : Ask) : Prop where
  op : a.op = ch 'e' ∨ a.op = ch 'd'
  name : IsWord a.name.bytes
  pid : IsNumber a.pid
  rsp : IsNumber a.rsp
  rbp : IsNumber a.rbp

/-- The round delivers the request, at the end of a line or not. -/
def Ask.DeliveredBy (a : Ask) (io : Round) : Prop :=
  ∃ msg tail, io.received = some msg ∧ (tail = [] ∨ tail = [ch '\n']) ∧
    msg.bytes = words [a.op] a.name.bytes a.pid a.rsp a.rbp ++ tail

/-- Rounds that were not cut short, each with the request it was about. -/
def ServeStep (s : Server) (l : Round × Ask) (t : Server) : Prop :=
  l.2.WellFormed ∧ l.2.DeliveredBy l.1 ∧ ∃ x, serve l.1 s = .ok x ∧ x.server = t

/-- `main` before its first round, with whatever is in the buffer. -/
def Server.start (str : Buffer) : Server := { str, ht := fun _ => none }

/-- A round obeys its request, when the rounds before it are `pre`. -/
def Obeys (pre : List (Server × (Round × Ask))) (s : Server) (l : Round × Ask) : Prop :=
  ∀ x, serve l.1 s = .ok x →
    (l.2.op = ch 'e' → x.encrypted = some (atol l.2.pid, atol l.2.rsp, atol l.2.rbp) ∧
      ∃ padding, x.server.ht l.2.name = some (htvalue l.2.op padding (atol l.2.rsp) (atol l.2.rbp))) ∧
    (l.2.op = ch 'd' → (x.replied = true ↔ ∃ e ∈ pre, e.2.2.op = ch 'e' ∧ e.2.2.name = l.2.name))

/-! ### Well-formed requests -/

theorem isdigit_facts {c : Byte} (h : isdigit c) : inToken c ∧ c ≠ ch 'e' ∧ c ≠ ch 'd' := by
  have hrange : ch '0' ≤ c ∧ c ≤ ch '9' := by simpa [isdigit] using h
  rw [inToken_iff]
  refine ⟨⟨?_, ?_⟩, ?_, ?_⟩ <;> rintro rfl <;> exact absurd hrange (by decide)

theorem sign_facts {sign : List Byte} (h : sign ∈ [[], [ch '-'], [ch '+']]) :
    ∀ c ∈ sign, inToken c ∧ c ≠ ch 'e' ∧ c ≠ ch 'd' := by
  simp only [List.mem_cons, List.not_mem_nil, or_false] at h
  rcases h with rfl | rfl | rfl <;> decide

theorem isNumber_facts {w : List Byte} (h : IsNumber w) : w ≠ [] ∧ ∀ c ∈ w, inToken c ∧ c ≠ ch 'e' ∧ c ≠ ch 'd' := by
  obtain ⟨sign, digits, rfl, hsign, hne, hdigits⟩ := h
  refine ⟨List.append_ne_nil_of_right_ne_nil _ hne, fun c hc => ?_⟩
  rcases List.mem_append.mp hc with hc | hc
  · exact sign_facts hsign c hc
  · exact isdigit_facts (hdigits c hc)

theorem isNumber_word {w : List Byte} (h : IsNumber w) : IsWord w :=
  ⟨(isNumber_facts h).1, fun c hc => ((isNumber_facts h).2 c hc).1⟩

theorem isNumber_head {w : List Byte} (h : IsNumber w) (rest : List Byte) :
    (w ++ rest).headD 0 ≠ ch 'e' ∧ (w ++ rest).headD 0 ≠ ch 'd' := by
  obtain ⟨hne, hall⟩ := isNumber_facts h
  obtain ⟨c, w, rfl⟩ := List.exists_cons_of_ne_nil hne
  exact (hall c List.mem_cons_self).2

theorem parseRequest_malloc {malloc : Bool} {str : Buffer} {x : Request × Buffer}
    (h : parseRequest malloc str = .ok x) :
    malloc = true := by
  obtain ⟨⟨p, str₁, pos⟩, -, h⟩ := bind_eq_ok.mp h
  obtain ⟨q, -, h⟩ := bind_eq_ok.mp h
  obtain ⟨⟨p₂, str₂, pos₂⟩, -, h⟩ := bind_eq_ok.mp h
  obtain ⟨q₂, -, h⟩ := bind_eq_ok.mp h
  obtain ⟨name, hname, -⟩ := bind_eq_ok.mp h
  cases malloc with
  | false => cases hname
  | true => rfl

/-! ### Rounds -/

section Rounds
variable {s t : Server} {l : Round × Ask} {x : Served}

theorem op_word {a : Ask} (hwf : a.WellFormed) : IsWord [a.op] := by
  refine ⟨List.cons_ne_nil _ _, fun c hc => ?_⟩
  rw [List.mem_singleton.mp hc]
  rcases hwf.op with h | h <;> rw [h] <;> decide

/-- A round that gets a well-formed request only answers it. It is cut short when nothing in the buffer
    ends the last token. -/
theorem serve_wellFormed {a : Ask} {i : Round} {msg : Received} {tail : List Byte} (hwf : a.WellFormed)
    (hrecv : i.received = some msg) (hmsg : msg.bytes = words [a.op] a.name.bytes a.pid a.rsp a.rbp ++ tail)
    (hmalloc : i.mallocName = true) :
    (∃ str, serve i s = .ok { server := { s with str }, encrypted := none, replied := true }) ∨
      ((∀ c ∈ tail ++ s.str.bytes.drop msg.bytes.length, inToken c) ∧ serve i s = .error .outOfBounds) := by
  have hstr : (s.str.recv msg).bytes = words [a.op] a.name.bytes a.pid a.rsp a.rbp ++
      (tail ++ s.str.bytes.drop msg.bytes.length) := by
    show msg.bytes ++ _ = _
    rw [hmsg, List.append_assoc]
  unfold serve
  rw [hrecv, hmalloc]
  rcases parseRequest_words (op_word hwf) hwf.name (isNumber_word hwf.pid) (isNumber_word hwf.rsp)
      (isNumber_word hwf.rbp) hstr with
    ⟨-, str, name, -, hok⟩ | ⟨hall, herr⟩
  · -- The dispatch looks at the first byte of the last token.
    obtain ⟨he, hd⟩ := isNumber_head hwf.rbp ((tail ++ s.str.bytes.drop msg.bytes.length).takeWhile inToken)
    refine Or.inl ⟨str, bind_eq_ok.mpr ⟨_, hok, ?_⟩⟩
    dsimp only
    rw [if_neg he, if_neg hd]
    rfl
  · refine Or.inr ⟨hall, ?_⟩
    dsimp only
    rw [herr]
    rfl

theorem serve_malloc {io : Round} (hx : serve io s = .ok x) : io.mallocName = true := by
  obtain ⟨y, hparse, -⟩ := bind_eq_ok.mp hx
  exact parseRequest_malloc hparse

theorem ServeStep.forgets (hs : ServeStep s l t) (hx : serve l.1 s = .ok x) :
    x.encrypted = none ∧ x.replied = true := by
  obtain ⟨hwf, ⟨msg, tail, hrecv, -, hmsg⟩, -⟩ := hs
  rcases serve_wellFormed hwf hrecv hmsg (serve_malloc hx) (s := s) with ⟨str, hok⟩ | ⟨-, herr⟩
  · obtain rfl := Except.ok.inj (hx.symm.trans hok)
    exact ⟨rfl, rfl⟩
  · rw [herr] at hx
    cases hx

/-- The rounds before, `pre`, have an `e` request for the function. -/
def Requested (pre : List (Server × (Round × Ask))) (name : CString) : Prop :=
  ∃ e ∈ pre, e.2.2.op = ch 'e' ∧ e.2.2.name = name

theorem obeys_iff {pre : List (Server × (Round × Ask))} (hs : ServeStep s l t) :
    Obeys pre s l ↔ l.2.op = ch 'd' ∧ Requested pre l.2.name := by
  obtain ⟨hwf, -, x, hx, -⟩ := id hs
  obtain ⟨henc, hrep⟩ := hs.forgets hx
  have hed : ch 'd' ≠ ch 'e' := by decide
  constructor
  · intro hobey
    obtain ⟨he, hdec⟩ := hobey x hx
    rcases hwf.op with hop | hop
    · obtain ⟨henc', -⟩ := he hop
      rw [henc] at henc'
      cases henc'
    · exact ⟨hop, (hdec hop).mp hrep⟩
  · rintro ⟨hop, hreq⟩ x' hx'
    obtain rfl := Except.ok.inj (hx.symm.trans hx')
    exact ⟨fun he => absurd (hop.symm.trans he) hed, fun _ => iff_of_true hrep hreq⟩

/-- A run obeys its requests. -/
def AllObeyed (tr : List (Server × (Round × Ask))) : Prop := ∀ pre e post, tr = pre ++ e :: post → Obeys pre e.1 e.2

/-- In every run of well-formed requests from the start of the server, a request is obeyed exactly when it
    is a `d` request after an `e` request for the same function, and so the run as a whole only when it
    is empty. -/
theorem all_obeyed_iff {str : Buffer} {tr : List (Server × (Round × Ask))} (hr : Run ServeStep (.start str) tr s) :
    (∀ pre e post, tr = pre ++ e :: post → (Obeys pre e.1 e.2 ↔ e.2.2.op = ch 'd' ∧ Requested pre e.2.2.name)) ∧
      (AllObeyed tr ↔ tr = []) := by
  have hiff : ∀ pre e post, tr = pre ++ e :: post →
      (Obeys pre e.1 e.2 ↔ e.2.2.op = ch 'd' ∧ Requested pre e.2.2.name) := by
    rintro pre e post rfl
    obtain ⟨_, t, -, -, hs⟩ := hr.of_mem e (List.mem_append_right pre List.mem_cons_self)
    exact obeys_iff hs
  refine ⟨hiff, fun hall => ?_, fun hnil => ?_⟩
  · cases htr : tr with
    | nil => rfl
    | cons e post =>
      -- Nothing comes before the first request.
      obtain ⟨-, e', he', -⟩ := (hiff [] e post htr).mp (hall [] e post htr)
      cases he'
  · rintro pre e post heq
    rw [hnil] at heq
    exact absurd heq (by simp)

end Rounds

/-- `e f1 1 2 3` -/
def askF1 : Ask := { op := ch 'e', name := f1, pid := [ch '1'], rsp := [ch '2'], rbp := [ch '3'] }

def askF1Round : Round where
  received := some ⟨words [ch 'e'] f1.bytes [ch '1'] [ch '2'] [ch '3'], by decide⟩
  mallocName := true
  mallocValue := true
  padding _ := 0

theorem askF1_served : ∃ t, ServeStep (.start (.filled 0)) (askF1Round, askF1) t := by
  have hnumber : ∀ c, isdigit c → IsNumber [c] :=
    fun c hc => ⟨[], [c], rfl, by simp, List.cons_ne_nil _ _, by simpa using hc⟩
  have hwf : askF1.WellFormed :=
    ⟨Or.inl rfl, ⟨List.cons_ne_nil _ _, by decide⟩, hnumber _ (by decide), hnumber _ (by decide), hnumber _ (by decide)⟩
  have hmsg : (⟨words [ch 'e'] f1.bytes [ch '1'] [ch '2'] [ch '3'], by decide⟩ : Received).bytes =
      words [askF1.op] askF1.name.bytes askF1.pid askF1.rsp askF1.rbp ++ [] := rfl
  rcases serve_wellFormed hwf (i := askF1Round) (s := .start (.filled 0)) rfl hmsg rfl with ⟨str, hok⟩ | ⟨hall, -⟩
  · exact ⟨_, hwf, ⟨_, [], rfl, Or.inl rfl, hmsg⟩, _, hok, rfl⟩
  · exact absurd (hall 0 (by decide)) (by decide)

theorem all_obeyed_sample : ∃ tr s, Run ServeStep (.start (.filled 0)) tr s ∧ tr ≠ [] ∧ (AllObeyed tr ↔ tr = []) := by
  obtain ⟨t, hs⟩ := askF1_served
  exact ⟨_, t, .snoc .nil hs, List.cons_ne_nil _ _, (all_obeyed_iff (.snoc .nil hs)).2⟩

/-- The first request is an `e` request. Nothing is encrypted, and the run is not obeyed. -/
theorem request_forgotten : ∃ s t x, Run ServeStep (.start (.filled 0)) [(s, (askF1Round, askF1))] t ∧
    serve askF1Round s = .ok x ∧ x.encrypted = none ∧ ¬AllObeyed [(s, (askF1Round, askF1))] := by
  obtain ⟨t, hs⟩ := askF1_served
  obtain ⟨-, -, x, hx, -⟩ := id hs
  obtain ⟨henc, -⟩ := hs.forgets hx
  refine ⟨_, t, x, .snoc .nil hs, hx, henc, fun hall => ?_⟩
  obtain ⟨henc', -⟩ := (hall [] _ [] rfl x hx).1 rfl
  rw [henc] at henc'
  cases henc'

end StackVault
