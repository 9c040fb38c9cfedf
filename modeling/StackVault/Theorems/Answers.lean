import StackVault.Exchange
import StackVault.Theorems.Robust

/-! Which calls of the client are answered. The text of a request ends in no terminator, so the server finds the end of
    its last token in what older messages have left behind it. What counts is the last such place in the buffer, and no
    answered request moves it. -/

namespace StackVault
open Transition

/-! ### What a parse does to the buffer -/

/-- Byte `k` of the buffer ends a token. -/
def Buffer.Stops (str : Buffer) (k : Nat) : Prop := ∃ b, str.bytes[k]? = some b ∧ ¬inToken b

/-- A token can end at byte `n` or behind it. -/
def Buffer.StopsFrom (str : Buffer) (n : Nat) : Prop := ∃ k, n ≤ k ∧ str.Stops k

/-- Some spaces have become the ends of strings. -/
def Chopped (str str' : Buffer) : Prop :=
  ∀ k : Nat, str'.bytes[k]? = str.bytes[k]? ∨ (str.bytes[k]? = some (ch ' ') ∧ str'.bytes[k]? = some 0)

section Chopped
variable {str str' str'' : Buffer} {pos pos' k n : Nat} {p : Option (List Byte)} {malloc : Bool} {r : Request}
  {b : Byte}

theorem Chopped.refl (str : Buffer) : Chopped str str := fun _ => Or.inl rfl

theorem Chopped.trans (h : Chopped str str') (h' : Chopped str' str'') : Chopped str str'' := by
  intro k
  rcases h' k with h₂ | ⟨h₁, h₂⟩
  · rw [h₂]
    exact h k
  · rcases h k with h₀ | ⟨-, h₀⟩
    · exact Or.inr ⟨h₀ ▸ h₁, h₂⟩
    · rw [h₀] at h₁
      exact absurd (Option.some.inj h₁) (by decide)

theorem Chopped.stops (h : Chopped str str') : str'.Stops k ↔ str.Stops k := by
  unfold Buffer.Stops
  rcases h k with heq | ⟨hsp, hnul⟩
  · rw [heq]
  · rw [hsp, hnul]
    exact iff_of_true ⟨0, rfl, by decide⟩ ⟨ch ' ', rfl, by decide⟩

/-- A byte of a token stays. -/
theorem Chopped.keeps (h : Chopped str str') (hb : str.bytes[k]? = some b) (hne : b ≠ ch ' ') :
    str'.bytes[k]? = some b := by
  rcases h k with heq | ⟨hsp, -⟩
  · rw [heq, hb]
  · rw [hb] at hsp
    exact absurd (Option.some.inj hsp) hne

/-- The byte behind a token is no byte of it, so it is a space if it is not the end of the string. -/
theorem Chopped.set {rest : List Byte} (h : str.bytes.drop n = b :: rest) (h0 : b ≠ 0) (hin : ¬inToken b) :
    Chopped str (str.set n 0) := by
  have hn : str.bytes[n]? = some b := by
    rw [← List.head?_drop, h]
    rfl
  intro k
  by_cases hk : n = k
  · obtain ⟨hlt, -⟩ := List.getElem?_eq_some_iff.mp hn
    subst hk
    rw [hn, (not_inToken.mp hin).resolve_right h0]
    exact Or.inr ⟨rfl, List.getElem?_set_self hlt⟩
  · exact Or.inl (List.getElem?_set_ne hk)

theorem strtok_chopped (h : strtok str pos = .ok (p, str', pos')) : Chopped str str' := by
  unfold strtok at h
  dsimp only at h
  split at h
  · cases h
  · next b s hstart =>
    split_ifs at h with h0
    · cases h
      exact .refl _
    · split at h
      · cases h
      · next d rest hstop =>
        split_ifs at h with hnul
        · cases h
          exact .refl _
        · cases h
          exact .set hstop hnul fun hin => by
            have hnil := takeWhile_dropWhile (p := inToken) (b :: s)
            rw [← List.drop_drop, hstart, drop_length_takeWhile] at hstop
            rw [hstop, List.takeWhile_cons_of_pos hin] at hnil
            cases hnil

theorem parse_chopped (h : parseRequest malloc str = .ok (r, str')) :
    ∃ p str₁ pos₁, strtok str 0 = .ok (p, str₁, pos₁) ∧ Chopped str₁ str' := by
  unfold parseRequest at h
  obtain ⟨⟨p₁, str₁, pos₁⟩, ht₁, h⟩ := bind_eq_ok.mp h
  obtain ⟨q₁, -, h⟩ := bind_eq_ok.mp h
  obtain ⟨⟨p₂, str₂, pos₂⟩, ht₂, h⟩ := bind_eq_ok.mp h
  obtain ⟨q₂, -, h⟩ := bind_eq_ok.mp h
  obtain ⟨funcName, -, h⟩ := bind_eq_ok.mp h
  obtain ⟨⟨p₃, str₃, pos₃⟩, ht₃, h⟩ := bind_eq_ok.mp h
  obtain ⟨q₃, -, h⟩ := bind_eq_ok.mp h
  obtain ⟨⟨p₄, str₄, pos₄⟩, ht₄, h⟩ := bind_eq_ok.mp h
  obtain ⟨q₄, -, h⟩ := bind_eq_ok.mp h
  obtain ⟨⟨p₅, str₅, pos₅⟩, ht₅, h⟩ := bind_eq_ok.mp h
  obtain ⟨q₅, -, h⟩ := bind_eq_ok.mp h
  cases h
  exact ⟨p₁, str₁, pos₁, ht₁,
    (strtok_chopped ht₂).trans ((strtok_chopped ht₃).trans ((strtok_chopped ht₄).trans (strtok_chopped ht₅)))⟩

/-- The first token of a request, when it is one byte. -/
theorem parse_head {rest : List Byte} (h : parseRequest malloc str = .ok (r, str')) (hb : inToken b)
    (hstr : str.bytes = b :: ch ' ' :: rest) :
    Chopped str str' ∧ str'.bytes[0]? = some b ∧ str'.bytes[1]? = some 0 := by
  obtain ⟨p, str₁, pos₁, ht, hrest⟩ := parse_chopped h
  have hfirst : str₁ = str.set 1 0 := by
    have hdrop : str.bytes.drop 0 = [b] ++ ch ' ' :: rest := hstr
    have hsep : ¬inToken (ch ' ') := not_inToken.mpr (Or.inl rfl)
    rw [strtok_at (List.cons_ne_nil _ _) (fun d hd => by rwa [List.mem_singleton.mp hd]) hdrop,
      List.dropWhile_cons_of_neg hsep, List.takeWhile_cons_of_neg hsep] at ht
    have hne : ch ' ' ≠ 0 := by decide
    dsimp only at ht
    rw [if_neg hne] at ht
    cases ht
    rfl
  have hset : str₁.bytes = b :: 0 :: rest := by
    subst hfirst
    show str.bytes.set 1 0 = _
    rw [hstr]
    rfl
  refine ⟨(strtok_chopped ht).trans hrest, hrest.keeps (by rw [hset]; rfl) (inToken_iff.mp hb).1,
    hrest.keeps (by rw [hset]; rfl) ?_⟩
  decide

end Chopped

/-! ### The two ends -/

section Ends
variable {str : Buffer} {pid topAddr bottomAddr : BitVec 64} {b : Byte}

theorem ne_zero_of_mem_request (h : b ∈ requestText pid topAddr bottomAddr) : b ≠ 0 := by
  have hword : ∀ v : Int, ∀ d ∈ printSigned v, d ≠ 0 := fun v d hd => (inToken_iff.mp (printSigned_word.2 d hd)).2
  simp only [requestText, List.mem_append, List.mem_cons, List.not_mem_nil, or_false] at h
  rcases h with ((((((rfl | rfl | rfl | rfl | rfl) | h) | rfl) | h) | rfl) | h) | rfl
  all_goals first | exact hword _ _ h | decide

/-- A text that `sprintf` has ended is sent as it is. -/
theorem sent_text {text : List Byte} (h : (text ++ [(0 : Byte)]).length ≤ 100) (hfits : text.length ≤ 100)
    (h0 : ∀ b ∈ text, b ≠ 0) :
    (str.recv ⟨text ++ [0], h⟩).sent (str.recv ⟨text ++ [0], h⟩).text.length = ⟨text, hfits⟩ := by
  have hbytes : (str.recv ⟨text ++ [0], h⟩).bytes = text ++ ([0] ++ str.bytes.drop (text ++ [(0 : Byte)]).length) :=
    List.append_assoc _ _ _
  have htext : (str.recv ⟨text ++ [0], h⟩).text = text := by
    rw [Buffer.text, hbytes, List.takeWhile_append_of_pos fun b hb => decide_eq_true (h0 b hb)]
    exact List.append_nil _
  unfold Buffer.sent
  rw [Received.mk.injEq, htext, hbytes, List.take_left]

/-- The client sends the text of its request. -/
theorem clientSend_eq (str : Buffer) (pid topAddr bottomAddr : BitVec 64) :
    ∃ str', clientSend str pid topAddr bottomAddr = .ok (str', request pid topAddr bottomAddr) := by
  unfold clientSend
  dsimp only
  rw [dif_pos (request_fits pid topAddr bottomAddr)]
  exact ⟨_, congrArg (fun msg => Except.ok (_, msg)) (sent_text _ _ fun b => ne_zero_of_mem_request)⟩

/-- What is printed of a reply is its first string. -/
theorem clientReceive_eq {reply : Received} (h : reply.bytes.length < 100) (h₀ : reply.bytes[0]? = some b) (hb : b ≠ 0)
    (h₁ : reply.bytes[1]? = some 0) : clientReceive str reply = .ok (some [b]) := by
  obtain ⟨bytes, hbytes⟩ := reply
  obtain _ | ⟨b', _ | ⟨d, rest⟩⟩ := bytes
  · cases h₀
  · cases h₁
  · obtain rfl : b' = b := Option.some.inj h₀
    obtain rfl : d = 0 := Option.some.inj h₁
    unfold clientReceive
    dsimp only at h ⊢
    have hpos : 0 < (b' :: 0 :: rest).length := Nat.zero_lt_succ _
    rw [if_pos hpos, if_pos h]
    show Except.ok (some (((b' :: 0 :: (rest ++ str.bytes.drop _)).set (rest.length + 2) 0).takeWhile (· ≠ 0))) = _
    rw [List.set_cons_succ, List.set_cons_succ,
      List.takeWhile_cons_of_pos (p := fun d : Byte => decide (d ≠ 0)) (decide_eq_true hb)]
    rfl

end Ends

/-! ### A call -/

/-- The call is answered: the server goes on to the next one, and the client prints `echo`. -/
def Answers (s : Machine) (l : Call × List Byte) (t : Machine) : Prop :=
  ∃ fuel, requestEncryptStack fuel l.1 s = some (.ok (t, some l.2))

/-- The text that the call sends. -/
def Call.text (call : Call) : List Byte := requestText call.pid call.topAddr call.bottomAddr

section Calls
variable {s t : Machine} {call : Call} {echo : List Byte} {n : Nat}

theorem recv_stops {str : Buffer} {msg : Received} {k : Nat} (h : msg.bytes.length ≤ k) :
    (str.recv msg).Stops k ↔ str.Stops k := by
  unfold Buffer.Stops
  have hget : (str.recv msg).bytes[k]? = str.bytes[k]? := by
    show (msg.bytes ++ str.bytes.drop msg.bytes.length)[k]? = _
    rw [List.getElem?_append_right h, List.getElem?_drop, Nat.add_sub_cancel' h]
  rw [hget]

theorem exists_mem_drop {str : Buffer} : (∃ b ∈ str.bytes.drop n, ¬inToken b) ↔ str.StopsFrom n := by
  constructor
  · rintro ⟨b, hb, hin⟩
    obtain ⟨k, hk⟩ := List.mem_iff_getElem?.mp hb
    rw [List.getElem?_drop] at hk
    exact ⟨n + k, Nat.le_add_right _ _, b, hk, hin⟩
  · rintro ⟨k, hle, b, hb, hin⟩
    refine ⟨b, List.mem_iff_getElem?.mpr ⟨k - n, ?_⟩, hin⟩
    rw [List.getElem?_drop, Nat.add_sub_cancel' hle]
    exact hb

theorem printSigned_number (v : Int) : IsNumber (printSigned v) := by
  have hdigit : ∀ b ∈ decimal v.natAbs, isdigit b := fun b hb => by
    obtain ⟨d, hd, rfl⟩ := mem_decimal hb
    exact (digit_facts d hd).1
  unfold printSigned
  split
  · exact ⟨[ch '-'], _, rfl, by simp, decimal_ne_nil, hdigit⟩
  · exact ⟨[], _, rfl, by simp, decimal_ne_nil, hdigit⟩

/-- What the round of the server meets. -/
def Call.round (call : Call) : Visit :=
  { call.visit with received := some (request call.pid call.topAddr call.bottomAddr) }

/-- A token can end behind the message, and the name of the function can be stored. -/
def Call.Fits (call : Call) (s : Machine) : Prop := call.visit.mallocName = true ∧ s.str.StopsFrom call.text.length

theorem round_bytes (call : Call) (s : Machine) : (call.round.fill s.str).bytes =
    words [ch 'e'] [ch 'f', ch '1'] (printSigned (call.pid.setWidth 32).toInt) (printSigned call.topAddr.toInt)
      (printSigned call.bottomAddr.toInt) ++ ch '\n' :: s.str.bytes.drop call.text.length := by
  show requestText call.pid call.topAddr call.bottomAddr ++ _ = _
  rw [requestText_eq, List.append_assoc]
  rfl

theorem parse_round (call : Call) (s : Machine) :
    (s.str.StopsFrom call.text.length ∧ ∃ r str, parseRequest true (call.round.fill s.str) = .ok (r, str) ∧
      r.p.headD 0 ≠ ch 'e' ∧ r.p.headD 0 ≠ ch 'd') ∨
    (¬s.str.StopsFrom call.text.length ∧ parseRequest true (call.round.fill s.str) = .error .outOfBounds) := by
  rcases parseRequest_words ⟨by simp, by decide⟩ ⟨by simp, by decide⟩ printSigned_word printSigned_word printSigned_word
    (round_bytes call s) with ⟨⟨b, hb, hstop⟩, str, name, -, hparse⟩ | ⟨hall, herr⟩
  · rcases List.mem_cons.mp hb with rfl | hb
    · exact absurd (by decide) hstop
    · exact Or.inl ⟨exists_mem_drop.mp ⟨b, hb, hstop⟩, _, str, hparse, isNumber_head (printSigned_number _) _⟩
  · refine Or.inr ⟨fun hstop => ?_, herr⟩
    obtain ⟨b, hb, hin⟩ := exists_mem_drop.mpr hstop
    exact hin (hall b (List.mem_cons_of_mem _ hb))

/-- A call that fits changes the buffer only, and leaves the first token there as a string. -/
theorem serve_call (h : call.Fits s) :
    ∃ str, (∀ fuel, serveRound fuel call.round s = some (.ok ({ s with str }, true))) ∧
    Chopped (call.round.fill s.str) str ∧ str.bytes[0]? = some (ch 'e') ∧ str.bytes[1]? = some 0 := by
  obtain ⟨hmalloc, hstop⟩ := h
  have hmalloc' : call.round.mallocName = true := hmalloc
  rcases parse_round call s with ⟨-, r, str, hparse, he, hd⟩ | ⟨hno, -⟩
  · have hin : inToken (ch 'e') := by decide
    refine ⟨str, fun fuel => ?_, parse_head hparse hin (round_bytes call s)⟩
    unfold serveRound
    rw [hmalloc', hparse]
    dsimp only
    rw [if_neg he, if_neg hd]
  · exact absurd hstop hno

/-- Any other crashes the server. -/
theorem serve_call_crashes (h : ¬call.Fits s) (fuel : Nat) : ∃ f, serveRound fuel call.round s = some (.error f) := by
  have herr : ∃ f, parseRequest call.round.mallocName (call.round.fill s.str) = .error f := by
    cases hparse : parseRequest call.round.mallocName (call.round.fill s.str) with
    | error f => exact ⟨f, rfl⟩
    | ok x =>
      have hmalloc := parseRequest_malloc hparse
      rw [hmalloc] at hparse
      rcases parse_round call s with ⟨hstop, -⟩ | ⟨-, herr⟩
      · exact absurd ⟨hmalloc, hstop⟩ h
      · rw [hparse] at herr
        cases herr
  obtain ⟨f, herr⟩ := herr
  refine ⟨f, ?_⟩
  unfold serveRound
  rw [herr]

/-- The places where a token can end are moved by no call that fits. -/
theorem stopsFrom_serve (h : call.Fits s) {str : Buffer} (hstr : Chopped (call.round.fill s.str) str) :
    str.StopsFrom n ↔ s.str.StopsFrom n := by
  have hbehind : ∀ k, call.text.length ≤ k → (str.Stops k ↔ s.str.Stops k) :=
    fun k hk => hstr.stops.trans (recv_stops hk)
  obtain ⟨-, k₀, hk₀, hstop₀⟩ := h
  constructor
  · rintro ⟨k, hle, hstop⟩
    rcases Nat.lt_or_ge k call.text.length with hlt | hge
    · exact ⟨k₀, by omega, hstop₀⟩
    · exact ⟨k, hle, (hbehind k hge).mp hstop⟩
  · rintro ⟨k, hle, hstop⟩
    rcases Nat.lt_or_ge k call.text.length with hlt | hge
    · exact ⟨k₀, by omega, (hbehind k₀ hk₀).mpr hstop₀⟩
    · exact ⟨k, hle, (hbehind k hge).mpr hstop⟩

/-- The reply to a call that fits is the text of the request with its spaces gone, so the client prints its first
    byte. -/
theorem request_of_fits (h : call.Fits s) : ∃ str, (∀ n, str.StopsFrom n ↔ s.str.StopsFrom n) ∧
    ∀ fuel, requestEncryptStack fuel call s = some (.ok ({ s with str }, some [ch 'e'])) := by
  obtain ⟨str, hserve, hchop, h₀, h₁⟩ := serve_call h
  refine ⟨str, fun n => stopsFrom_serve h hchop, fun fuel => ?_⟩
  obtain ⟨str', hsend⟩ := clientSend_eq call.str call.pid call.topAddr call.bottomAddr
  have hfits : call.text.length + 1 ≤ 100 := request_fits _ _ _
  have htwo : 2 ≤ call.text.length := by
    rw [Call.text, requestText]
    simp only [List.length_append, List.length_cons]
    omega
  have hlen : (str.sent call.text.length).bytes.length = call.text.length := by
    show (str.bytes.take _).length = _
    rw [List.length_take, str.size]
    omega
  have hreceive : clientReceive str' (str.sent call.text.length) = .ok (some [ch 'e']) := by
    refine clientReceive_eq (by omega) ?_ (by decide) ?_
    · exact (List.getElem?_take_of_lt (by omega)).trans h₀
    · exact (List.getElem?_take_of_lt (by omega)).trans h₁
  unfold requestEncryptStack
  rw [hsend]
  dsimp only
  rw [show serveRound fuel { call.visit with received := some (request call.pid call.topAddr call.bottomAddr) } s =
    _ from hserve fuel]
  exact congrArg some (bind_eq_ok.mpr ⟨({ s with str }, true), rfl, bind_eq_ok.mpr ⟨_, hreceive, rfl⟩⟩)

/-- A call that is answered fits. -/
theorem fits_of_answers (h : Answers s (call, echo) t) : call.Fits s := by
  by_contra hno
  obtain ⟨fuel, h⟩ := h
  obtain ⟨str', hsend⟩ := clientSend_eq call.str call.pid call.topAddr call.bottomAddr
  obtain ⟨f, herr⟩ := serve_call_crashes hno fuel
  unfold requestEncryptStack at h
  rw [hsend] at h
  dsimp only at h
  rw [show serveRound fuel { call.visit with received := some (request call.pid call.topAddr call.bottomAddr) } s =
    _ from herr] at h
  cases h

/-- An answered call prints the operation, and leaves the server as it was but for its buffer, and there the places
    from which a token can end. -/
theorem answers_inv (h : Answers s (call, echo) t) : echo = [ch 'e'] ∧ t.ht = s.ht ∧ t.phys = s.phys ∧
    ∀ n, t.str.StopsFrom n ↔ s.str.StopsFrom n := by
  obtain ⟨str, hstops, hall⟩ := request_of_fits (fits_of_answers h)
  obtain ⟨fuel, h⟩ := h
  rw [hall fuel] at h
  cases h
  exact ⟨rfl, rfl, rfl, hstops⟩

theorem answers_fits (h : Answers s (call, echo) t) (c : Call) : c.Fits t ↔ c.Fits s := by
  obtain ⟨-, -, -, hstops⟩ := answers_inv h
  exact and_congr_right fun _ => hstops _

/-- What a run of answered calls keeps. -/
theorem answered_run {tr : List (Machine × (Call × List Byte))} (hr : Run Answers s tr t) :
    (t.ht = s.ht ∧ t.phys = s.phys ∧ ∀ c : Call, c.Fits t ↔ c.Fits s) ∧ ∀ e ∈ tr, e.2.1.Fits s ∧ e.2.2 = [ch 'e'] := by
  induction hr with
  | nil => exact ⟨⟨rfl, rfl, fun _ => Iff.rfl⟩, fun e he => by cases he⟩
  | @snoc tr u t l hr hs ih =>
    obtain ⟨call, echo⟩ := l
    obtain ⟨⟨hht, hphys, hfits⟩, hall⟩ := ih
    obtain ⟨hecho, hht', hphys', -⟩ := answers_inv hs
    refine ⟨⟨hht'.trans hht, hphys'.trans hphys, fun c => (answers_fits hs c).trans (hfits c)⟩, fun e he => ?_⟩
    rcases List.mem_append.mp he with he | he
    · exact hall e he
    · rw [List.mem_singleton.mp he]
      exact ⟨(hfits call).mp (fits_of_answers hs), hecho⟩

theorem answered_all {calls : List Call} (h : ∀ call ∈ calls, call.Fits s) :
    ∃ tr t, Run Answers s tr t ∧ tr.map (fun e => e.2.1) = calls := by
  induction calls using List.reverseRecOn with
  | nil => exact ⟨[], s, .nil, rfl⟩
  | append_singleton calls call ih =>
    obtain ⟨tr, t, hr, hcalls⟩ := ih fun c hc => h c (List.mem_append_left _ hc)
    obtain ⟨⟨-, -, hfits⟩, -⟩ := answered_run hr
    obtain ⟨str, -, hall⟩ := request_of_fits ((hfits call).mpr (h call (List.mem_append_right _ List.mem_cons_self)))
    exact ⟨_, _, hr.snoc (l := (call, [ch 'e'])) ⟨0, hall 0⟩, by simp [hcalls]⟩

end Calls

/-- Any calls, in any order, are all answered if and only if the text of each is no longer than the part of the server's
    buffer in front of the last space or null byte there, as it is before the first call; and as long as calls are
    answered, each client prints just an `e`, and neither the table nor physical memory changes. -/
theorem calls_answered_iff (s : Machine) (calls : List Call) :
    ((∃ tr t, Run Answers s tr t ∧ tr.map (fun e => e.2.1) = calls) ↔ ∀ call ∈ calls, call.Fits s) ∧
      ∀ tr t, Run Answers s tr t → t.ht = s.ht ∧ t.phys = s.phys ∧ ∀ e ∈ tr, e.2.2 = [ch 'e'] := by
  refine ⟨⟨?_, answered_all⟩, fun tr t hr => ?_⟩
  · rintro ⟨tr, t, hr, rfl⟩ call hcall
    obtain ⟨e, he, rfl⟩ := List.mem_map.mp hcall
    exact ((answered_run hr).2 e he).1
  · obtain ⟨⟨hht, hphys, -⟩, hall⟩ := answered_run hr
    exact ⟨hht, hphys, fun e he => (hall e he).2⟩

end StackVault
