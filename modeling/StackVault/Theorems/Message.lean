import StackVault.Client

/-! The text between client and server. -/

namespace StackVault

/-! ### Tokens -/

/-- A token by itself. -/
def IsWord (w : List Byte) : Prop := w ≠ [] ∧ ∀ c ∈ w, inToken c

theorem inToken_iff {c : Byte} : inToken c ↔ c ≠ ch ' ' ∧ c ≠ 0 := decide_eq_true_iff

theorem not_inToken {c : Byte} : ¬inToken c ↔ c = ch ' ' ∨ c = 0 := by
  rw [inToken_iff, not_and_or, not_not, not_not]

theorem drop_length_takeWhile {α : Type} {p : α → Bool} : ∀ l : List α, l.drop (l.takeWhile p).length = l.dropWhile p
  | [] => rfl
  | c :: l => by
    by_cases hc : p c
    · simp [hc, drop_length_takeWhile l]
    · simp [hc]

section Tokens
variable {str : Buffer} {pos : Nat} {tok rest : List Byte}

/-- `strtok` in front of a token: it runs past the end of the buffer if nothing ends the token. -/
theorem strtok_at (hne : tok ≠ []) (htok : ∀ c ∈ tok, inToken c) (h : str.bytes.drop pos = tok ++ rest) :
    strtok str pos = match rest.dropWhile inToken with
      | [] => .error .outOfBounds
      | c :: _ =>
        let token := tok ++ rest.takeWhile inToken
        if c = 0 then .ok (some token, str, pos + token.length)
        else .ok (some token, str.set (pos + token.length) 0, pos + token.length + 1) := by
  have htake : (tok ++ rest).takeWhile inToken = tok ++ rest.takeWhile inToken := List.takeWhile_append_of_pos htok
  have hstop : str.bytes.drop (pos + (tok ++ rest.takeWhile inToken).length) = rest.dropWhile inToken := by
    rw [← List.drop_drop, h, List.length_append, ← List.drop_drop, List.drop_left, drop_length_takeWhile]
  obtain ⟨c, tok, rfl⟩ := List.exists_cons_of_ne_nil hne
  have hc := inToken_iff.mp (htok c List.mem_cons_self)
  have hskip : (str.bytes.drop pos).takeWhile (· = ch ' ') = [] := by
    rw [h, List.cons_append, List.takeWhile_cons_of_neg (by simpa using hc.1)]
  rw [List.cons_append] at h htake
  unfold strtok
  rw [hskip, List.length_nil, Nat.add_zero]
  dsimp only
  rw [h]
  dsimp only
  rw [if_neg hc.2, htake]
  cases hd : rest.dropWhile inToken with
  | nil => simp only [hstop, hd]
  | cons c s => simp only [hstop, hd]

theorem strtok_word (hne : tok ≠ []) (htok : ∀ c ∈ tok, inToken c) (h : str.bytes.drop pos = tok ++ ch ' ' :: rest) :
    ∃ str' pos', strtok str pos = .ok (some tok, str', pos') ∧ str'.bytes.drop pos' = rest := by
  have hsep : ¬inToken (ch ' ') := not_inToken.mpr (Or.inl rfl)
  have hne0 : ch ' ' ≠ 0 := by decide
  refine ⟨str.set (pos + tok.length) 0, pos + tok.length + 1, ?_, ?_⟩
  · rw [strtok_at hne htok h, List.dropWhile_cons_of_neg hsep, List.takeWhile_cons_of_neg hsep, List.append_nil]
    exact if_neg hne0
  · have hdrop : str.bytes.drop (pos + tok.length + 1) = rest := by
      rw [Nat.add_assoc, ← List.drop_drop, h, ← List.drop_drop, List.drop_left]
      rfl
    simpa [Buffer.set, List.drop_set] using hdrop

/-- The last token takes in what follows it, up to a space or the end of a string. -/
theorem strtok_last (hne : tok ≠ []) (htok : ∀ c ∈ tok, inToken c) (h : str.bytes.drop pos = tok ++ rest) :
    (∃ str' pos', strtok str pos = .ok (some (tok ++ rest.takeWhile inToken), str', pos') ∧ ∃ c ∈ rest, ¬inToken c) ∨
      (strtok str pos = .error .outOfBounds ∧ ∀ c ∈ rest, inToken c) := by
  rw [strtok_at hne htok h]
  cases hd : rest.dropWhile inToken with
  | nil => exact Or.inr ⟨rfl, List.dropWhile_eq_nil_iff.mp hd⟩
  | cons c s =>
    have hstop : ∃ c ∈ rest, ¬inToken c := by
      by_contra hall
      simp only [not_exists, not_and, not_not] at hall
      rw [List.dropWhile_eq_nil_iff.mpr hall] at hd
      cases hd
    refine Or.inl ?_
    dsimp only
    split
    · exact ⟨_, _, rfl, hstop⟩
    · exact ⟨_, _, rfl, hstop⟩

end Tokens

/-! ### Numbers -/

theorem digit_facts : ∀ d < 10, isdigit (ch '0' + BitVec.ofNat 8 d) ∧ (ch '0' + BitVec.ofNat 8 d - ch '0').toNat = d ∧
    ¬isspace (ch '0' + BitVec.ofNat 8 d) ∧ ch '0' + BitVec.ofNat 8 d ≠ ch '-' ∧ ch '0' + BitVec.ofNat 8 d ≠ ch '+' ∧
    inToken (ch '0' + BitVec.ofNat 8 d) := by decide

section Numbers
variable {n : Nat} {v : Int} {rest : List Byte}

theorem mem_decimal {c : Byte} (h : c ∈ decimal n) : ∃ d < 10, ch '0' + BitVec.ofNat 8 d = c := by
  obtain ⟨d, hd, rfl⟩ := List.mem_map.mp h
  exact ⟨d, Decimal.lt_of_mem_digits hd, rfl⟩

theorem decimal_ne_nil : decimal n ≠ [] := by simpa [decimal] using Decimal.digits_ne_nil n

theorem digitsValue_decimal (hrest : rest.takeWhile isdigit = []) : digitsValue (decimal n ++ rest) = n := by
  have htake : (decimal n ++ rest).takeWhile isdigit = decimal n := by
    rw [List.takeWhile_append_of_pos fun c hc => ?_, hrest, List.append_nil]
    obtain ⟨d, hd, rfl⟩ := mem_decimal hc
    exact (digit_facts d hd).1
  have hmap : (decimal n).map (fun c => (c - ch '0').toNat) = Decimal.digits n := by
    rw [decimal, List.map_map]
    exact List.map_congr_left (fun d hd => (digit_facts d (Decimal.lt_of_mem_digits hd)).2.1) |>.trans (List.map_id _)
  calc digitsValue (decimal n ++ rest)
      = (decimal n).foldl (fun v c => 10 * v + (c - ch '0').toNat) 0 := by rw [digitsValue, htake]
    _ = Decimal.value ((decimal n).map fun c => (c - ch '0').toNat) := by rw [Decimal.value, List.foldl_map]
    _ = n := by rw [hmap, Decimal.value_digits]

theorem clampLong_of_range (h1 : -2 ^ 63 ≤ v) (h2 : v < 2 ^ 63) : clampLong v = BitVec.ofInt 64 v := by
  rw [clampLong, min_eq_left (by omega), max_eq_right h1]

/-- `atol` reads back what `%d` and `%lld` print. -/
theorem atol_print (h1 : -2 ^ 63 ≤ v) (h2 : v < 2 ^ 63) (hrest : rest.takeWhile isdigit = []) :
    atol (printSigned v ++ rest) = BitVec.ofInt 64 v := by
  have hminus : ¬isspace (ch '-') := by decide
  unfold printSigned
  split
  · next hneg =>
    rw [atol, List.cons_append, List.dropWhile_cons_of_neg hminus]
    dsimp only
    rw [if_pos rfl, digitsValue_decimal hrest, clampLong_of_range (by omega) (by omega)]
    congr 1
    omega
  · next hpos =>
    obtain ⟨c, s, hcs⟩ := List.exists_cons_of_ne_nil (decimal_ne_nil (n := v.natAbs))
    obtain ⟨d, hd, rfl⟩ := mem_decimal (n := v.natAbs) (c := c) (by rw [hcs]; exact List.mem_cons_self)
    obtain ⟨-, -, hspace, hm, hp, -⟩ := digit_facts d hd
    have hval := digitsValue_decimal (n := v.natAbs) hrest
    rw [hcs, List.cons_append] at hval
    rw [hcs, atol, List.cons_append, List.dropWhile_cons_of_neg hspace]
    dsimp only
    rw [if_neg hm, if_neg hp, hval, clampLong_of_range (by omega) (by omega)]
    congr 1
    omega

theorem atol_print_long (x : BitVec 64) (hrest : rest.takeWhile isdigit = []) :
    atol (printSigned x.toInt ++ rest) = x := by
  rw [atol_print x.le_toInt x.toInt_lt hrest, BitVec.ofInt_toInt]

theorem printSigned_word : IsWord (printSigned v) := by
  have hdigit : ∀ c ∈ decimal v.natAbs, inToken c := fun c hc => by
    obtain ⟨d, hd, rfl⟩ := mem_decimal hc
    exact (digit_facts d hd).2.2.2.2.2
  unfold printSigned
  split
  · refine ⟨List.cons_ne_nil _ _, fun c hc => ?_⟩
    rcases List.mem_cons.mp hc with rfl | hc
    · decide
    · exact hdigit c hc
  · exact ⟨decimal_ne_nil, hdigit⟩

theorem length_printSigned (h1 : -2 ^ 63 ≤ v) (h2 : v < 2 ^ 63) : (printSigned v).length ≤ 20 := by
  have hlen : (decimal v.natAbs).length ≤ 19 := by
    rw [decimal, List.length_map]
    exact Decimal.length_digits_le (Nat.zero_lt_succ 18) (by omega)
  unfold printSigned
  split
  · exact Nat.succ_le_succ hlen
  · exact hlen.trans (Nat.le_succ 19)

end Numbers

/-! ### Requests -/

theorem copyName_word {w : List Byte} (hw : IsWord w) : ∃ name, copyName true w = .ok name ∧ name.bytes = w := by
  refine ⟨_, rfl, ?_⟩
  have hall : ∀ c ∈ w, decide (c ≠ 0) = true := fun c hc => decide_eq_true (inToken_iff.mp (hw.2 c hc)).2
  exact List.takeWhile_eq_self_iff.mpr hall

/-- Five words with a space after each of the first four. -/
def words (op name pid rsp rbp : List Byte) : List Byte :=
  op ++ ch ' ' :: (name ++ ch ' ' :: (pid ++ ch ' ' :: (rsp ++ ch ' ' :: rbp)))

section Requests
variable {str : Buffer} {op name pid rsp rbp rest : List Byte}

/-- A request of five words is taken apart at its spaces if the rest of the buffer ends the last of them,
    and runs past the end of the buffer otherwise. -/
theorem parseRequest_words (hop : IsWord op) (hname : IsWord name) (hpid : IsWord pid) (hrsp : IsWord rsp)
    (hrbp : IsWord rbp) (hstr : str.bytes = words op name pid rsp rbp ++ rest) :
    ((∃ c ∈ rest, ¬inToken c) ∧ ∃ str' funcName, funcName.bytes = name ∧ parseRequest true str =
      .ok ({ op := op.headD 0, funcName, pid := atol pid, rsp := atol rsp, rbp := atol (rbp ++ rest.takeWhile inToken),
             p := rbp ++ rest.takeWhile inToken }, str')) ∨
    ((∀ c ∈ rest, inToken c) ∧ parseRequest true str = .error .outOfBounds) := by
  have h₀ :
      str.bytes.drop 0 = op ++ ch ' ' :: (name ++ ch ' ' :: (pid ++ ch ' ' :: (rsp ++ ch ' ' :: (rbp ++ rest)))) := by
    simp [hstr, words]
  obtain ⟨str₁, pos₁, ht₁, h₁⟩ := strtok_word hop.1 hop.2 h₀
  obtain ⟨str₂, pos₂, ht₂, h₂⟩ := strtok_word hname.1 hname.2 h₁
  obtain ⟨str₃, pos₃, ht₃, h₃⟩ := strtok_word hpid.1 hpid.2 h₂
  obtain ⟨str₄, pos₄, ht₄, h₄⟩ := strtok_word hrsp.1 hrsp.2 h₃
  obtain ⟨funcName, hcopy, hbytes⟩ := copyName_word hname
  unfold parseRequest
  simp only [ht₁, ht₂, ht₃, ht₄, hcopy, pointee, bind, Except.bind, pure, Except.pure]
  rcases strtok_last hrbp.1 hrbp.2 h₄ with ⟨⟨str₅, pos₅, ht₅, hstop⟩⟩ | ⟨ht₅, hall⟩
  · rw [ht₅]
    exact Or.inl ⟨hstop, str₅, funcName, hbytes, rfl⟩
  · rw [ht₅]
    exact Or.inr ⟨hall, rfl⟩

/-! ### The request of the client -/

theorem requestText_eq (pid top bottom : BitVec 64) : requestText pid top bottom =
    words [ch 'e'] [ch 'f', ch '1'] (printSigned (pid.setWidth 32).toInt) (printSigned top.toInt)
      (printSigned bottom.toInt) ++
      [ch '\n'] := by
  simp only [requestText, words, List.append_assoc, List.cons_append, List.nil_append]

theorem length_print_word {w : Nat} (hw : w ≤ 64) (x : BitVec w) : (printSigned x.toInt).length ≤ 20 := by
  have hpow : (2 : Int) ^ w ≤ 2 ^ 64 := pow_le_pow_right₀ (by decide) hw
  have h1 := x.two_mul_toInt_lt
  have h2 := x.le_two_mul_toInt
  exact length_printSigned (by omega) (by omega)

/-- The text with its terminator fits the buffers of both sides. -/
theorem request_fits (pid top bottom : BitVec 64) : (requestText pid top bottom).length + 1 ≤ 100 := by
  have hp := length_print_word (by decide) (pid.setWidth 32)
  have ht := length_print_word le_rfl top
  have hb := length_print_word le_rfl bottom
  simp only [requestText, List.length_append, List.length_cons, List.length_nil]
  omega

/-- The message, delivered whole. -/
def request (pid top bottom : BitVec 64) : Received :=
  ⟨requestText pid top bottom, (Nat.le_succ _).trans (request_fits pid top bottom)⟩

/-- The server makes of the message what the client meant by it. -/
def Understood (str : Buffer) (pid top bottom : BitVec 64) : Prop :=
  ∃ r str', parseRequest true (str.recv (request pid top bottom)) = .ok (r, str') ∧ r.op = ch 'e' ∧
    r.funcName.bytes = [ch 'f', ch '1'] ∧ r.pid = pid ∧ r.rsp = top ∧ r.rbp = bottom

/-- What the buffer holds behind the message. -/
def residue (str : Buffer) (pid top bottom : BitVec 64) : List Byte :=
  str.bytes.drop (requestText pid top bottom).length

/-- The server understands the message, or runs past the end of its buffer. -/
theorem parse_message {pid : BitVec 64} (hpid : pid.toNat < 2 ^ 31) (top bottom : BitVec 64) (str : Buffer) :
    ((∃ c ∈ residue str pid top bottom, c = ch ' ' ∨ c = 0) ∧ Understood str pid top bottom) ∨
      ((∀ c ∈ residue str pid top bottom, inToken c) ∧
        parseRequest true (str.recv (request pid top bottom)) = .error .outOfBounds) := by
  have hlow : (pid.setWidth 32).toInt = pid.toNat := by
    have hmod : (pid.setWidth 32).toNat = pid.toNat := by
      rw [BitVec.toNat_setWidth]
      exact Nat.mod_eq_of_lt (by omega)
    rw [BitVec.toInt_eq_toNat_of_lt (by omega), hmod]
  have hword : ∀ v, IsWord (printSigned v) := fun _ => printSigned_word
  have hrecv : (str.recv (request pid top bottom)).bytes =
      words [ch 'e'] [ch 'f', ch '1'] (printSigned (pid.setWidth 32).toInt) (printSigned top.toInt)
        (printSigned bottom.toInt) ++
        ch '\n' :: residue str pid top bottom := by
    show requestText pid top bottom ++ _ = _
    rw [requestText_eq, List.append_assoc]
    rfl
  rcases parseRequest_words ⟨by simp, by decide⟩ ⟨by simp, by decide⟩ (hword _) (hword _) (hword _) hrecv with
    ⟨⟨c, hc, hstop⟩, str', name, hname, hparse⟩ | ⟨hall, herr⟩
  · have hline : inToken (ch '\n') := by decide
    refine Or.inl ⟨?_, _, str', hparse, rfl, hname, ?_, ?_, ?_⟩
    · rcases List.mem_cons.mp hc with rfl | hc
      · exact absurd hline hstop
      · exact ⟨c, hc, not_inToken.mp hstop⟩
    · have hatol := atol_print (v := (pid.setWidth 32).toInt) (by omega) (by omega) List.takeWhile_nil
      rwa [List.append_nil, hlow, BitVec.ofInt_natCast, BitVec.ofNat_toNat, BitVec.setWidth_eq, ← hlow] at hatol
    · simpa using atol_print_long top List.takeWhile_nil
    · -- The line end stops `atol` in front of the residue.
      exact atol_print_long bottom rfl
  · exact Or.inr ⟨fun c hc => hall c (List.mem_cons_of_mem _ hc), herr⟩

/-- The text always fits, and the server understands it if and only if what is left of earlier contents
    behind it in the buffer ends its last token. -/
theorem understood_iff {pid : BitVec 64} (hpid : pid.toNat < 2 ^ 31) (top bottom : BitVec 64) (str : Buffer) :
    ((requestText pid top bottom).length + 1 ≤ 100 ∧ Understood str pid top bottom) ↔
      ∃ c ∈ residue str pid top bottom, c = ch ' ' ∨ c = 0 := by
  rw [and_iff_right (request_fits pid top bottom)]
  rcases parse_message hpid top bottom str with ⟨hstop, hund⟩ | ⟨hall, herr⟩
  · exact iff_of_true hund hstop
  · refine iff_of_false ?_ ?_
    · rintro ⟨r, str', hparse, -⟩
      rw [herr] at hparse
      cases hparse
    · rintro ⟨c, hc, hstop⟩
      exact not_inToken.mpr hstop (hall c hc)

/-- A buffer with the same byte everywhere. -/
def Buffer.filled (c : Byte) : Buffer := ⟨List.replicate 100 c, List.length_replicate⟩

theorem mem_residue_filled {c d : Byte} {pid top bottom : BitVec 64} :
    d ∈ residue (.filled c) pid top bottom ↔ d = c := by
  have h := request_fits pid top bottom
  rw [residue, Buffer.filled, List.drop_replicate, List.mem_replicate]
  exact and_iff_right (by omega)

theorem understood_sample : Understood (.filled 0) 1234 0x7ffffffde000 0xffffffffff600000 := by
  have hpid : (1234 : BitVec 64).toNat < 2 ^ 31 := by decide
  have hiff := understood_iff hpid 0x7ffffffde000 0xffffffffff600000 (.filled 0)
  exact (hiff.mpr ⟨0, mem_residue_filled.mpr rfl, Or.inr rfl⟩).2

/-- In a buffer full of other bytes the last token has no end. -/
theorem unterminated_overruns :
    parseRequest true ((Buffer.filled (ch 'A')).recv (request 1234 0x7ffffffde000 0xffffffffff600000)) =
      .error .outOfBounds ∧
      ¬Understood (.filled (ch 'A')) 1234 0x7ffffffde000 0xffffffffff600000 := by
  have hpid : (1234 : BitVec 64).toNat < 2 ^ 31 := by decide
  rcases parse_message hpid 0x7ffffffde000 0xffffffffff600000 (.filled (ch 'A')) with ⟨⟨c, hc, hstop⟩, -⟩ | ⟨-, herr⟩
  · rw [mem_residue_filled.mp hc] at hstop
    exact absurd hstop (by decide)
  · refine ⟨herr, ?_⟩
    rintro ⟨r, str', hparse, -⟩
    rw [herr] at hparse
    cases hparse

end Requests

end StackVault
