import StackVault.Service
import StackVault.Theorems.Areas
import StackVault.Theorems.Dispatch

/-! When a round of the server survives what it receives. The five tokens are used without a test, and `strtok` goes
    on into what is left of earlier messages, so a round is safe exactly when all five of them end inside the
    message; and the two branches have conditions of their own. -/

namespace StackVault
open Pages Transition

/-! ### Tokens that end -/

/-- The bytes begin with spaces, the token, and the byte `c` that ends it; `rest` follows. -/
def Starts (bytes tok : List Byte) (c : Byte) (rest : List Byte) : Prop :=
  ∃ sp, (∀ b ∈ sp, b = ch ' ') ∧ IsWord tok ∧ ¬inToken c ∧ bytes = sp ++ (tok ++ c :: rest)

section Starts
variable {bytes tok rest u : List Byte} {c : Byte} {str str' : Buffer} {pos pos' : Nat}

theorem Starts.append (h : Starts bytes tok c rest) : Starts (bytes ++ u) tok c (rest ++ u) := by
  obtain ⟨sp, hsp, hw, hc, rfl⟩ := h
  exact ⟨sp, hsp, hw, hc, by simp⟩

/-- A token of bytes that go on without an end lies in front of these. -/
theorem Starts.of_append (h : Starts (bytes ++ u) tok c rest) (hu : ∀ b ∈ u, inToken b) :
    ∃ rest', rest = rest' ++ u ∧ Starts bytes tok c rest' := by
  obtain ⟨sp, hsp, hw, hc, heq⟩ := h
  have heq' : bytes ++ u = (sp ++ tok ++ [c]) ++ rest := by simpa using heq
  rcases List.append_eq_append_iff.mp heq' with ⟨a, ha, hua⟩ | ⟨a, ha, hrest⟩
  · rcases List.eq_nil_or_concat a with rfl | ⟨a, d, rfl⟩
    · exact ⟨[], by simpa using hua.symm, sp, hsp, hw, hc, by simpa using ha.symm⟩
    · -- The end of the token would be one of the bytes that go on.
      have hd : c = d := by
        rw [List.concat_eq_append, ← List.append_assoc] at ha
        exact List.singleton_inj.mp (List.append_inj' ha rfl).2
      exact absurd (hu d (by rw [hua]; simp)) (hd ▸ hc)
  · exact ⟨a, hrest, sp, hsp, hw, hc, by simpa using ha⟩

theorem takeWhile_dropWhile {α : Type} {p : α → Bool} : ∀ l : List α, (l.dropWhile p).takeWhile p = []
  | [] => rfl
  | c :: l => by
    by_cases hc : p c
    · simp [hc, takeWhile_dropWhile l]
    · simp [hc]

/-- The spaces in front of a token are skipped. -/
theorem strtok_skip : strtok str pos = strtok str (pos + ((str.bytes.drop pos).takeWhile (· = ch ' ')).length) := by
  have hskip :
      ((str.bytes.drop (pos + ((str.bytes.drop pos).takeWhile (· = ch ' ')).length)).takeWhile (· = ch ' ')).length =
      0 := by
    rw [← List.drop_drop, drop_length_takeWhile, takeWhile_dropWhile]
    rfl
  unfold strtok
  simp only [hskip, Nat.add_zero]

/-- A call of `strtok` in front of such a token. -/
theorem strtok_starts (h : Starts (str.bytes.drop pos) tok c rest) :
    ∃ str' pos', strtok str pos = .ok (some tok, str', pos') ∧ (c = ch ' ' → str'.bytes.drop pos' = rest) := by
  obtain ⟨sp, hsp, hw, hc, heq⟩ := h
  have hall : ∀ b ∈ sp, decide (b = ch ' ') = true := fun b hb => decide_eq_true (hsp b hb)
  have htake : (str.bytes.drop pos).takeWhile (· = ch ' ') = sp := by
    obtain ⟨b, tok', rfl⟩ := List.exists_cons_of_ne_nil hw.1
    have hb := (inToken_iff.mp (hw.2 b List.mem_cons_self)).1
    rw [heq, List.takeWhile_append_of_pos hall, List.cons_append, List.takeWhile_cons_of_neg (by simpa using hb),
      List.append_nil]
  have hdrop : str.bytes.drop (pos + sp.length) = tok ++ c :: rest := by
    rw [← List.drop_drop, heq, List.drop_left]
  rw [strtok_skip, htake]
  by_cases h0 : c = ch ' '
  · rw [h0] at hdrop
    obtain ⟨str', pos', hok, hrest⟩ := strtok_word hw.1 hw.2 hdrop
    exact ⟨str', pos', hok, fun _ => hrest⟩
  · rw [strtok_at hw.1 hw.2 hdrop, List.dropWhile_cons_of_neg hc, List.takeWhile_cons_of_neg hc, List.append_nil]
    have hnul : c = 0 := (not_inToken.mp hc).resolve_left h0
    exact ⟨_, _, if_pos hnul, fun h => absurd h h0⟩

/-- At the end of the string there is no token. -/
theorem strtok_nul (h : str.bytes.drop pos = 0 :: rest) : strtok str pos = .ok (none, str, pos) := by
  have hskip : (str.bytes.drop pos).takeWhile (· = ch ' ') = [] := by
    rw [h, List.takeWhile_cons_of_neg (by decide)]
  unfold strtok
  rw [hskip, List.length_nil, Nat.add_zero]
  dsimp only
  rw [h]
  rfl

/-- A call that finds a token finds one that ends. -/
theorem starts_of_strtok (h : strtok str pos = .ok (some tok, str', pos')) :
    ∃ c rest, Starts (str.bytes.drop pos) tok c rest ∧
      (c = ch ' ' → str'.bytes.drop pos' = rest) ∧ (c = 0 → str'.bytes.drop pos' = 0 :: rest) := by
  have hsp : ∀ b ∈ (str.bytes.drop pos).takeWhile (· = ch ' '), b = ch ' ' :=
    fun b hb => by simpa using List.mem_takeWhile_imp hb
  have hsplit : str.bytes.drop pos =
      (str.bytes.drop pos).takeWhile (· = ch ' ') ++ (str.bytes.drop pos).dropWhile (· = ch ' ') :=
    List.takeWhile_append_dropWhile.symm
  have hdrop : str.bytes.drop (pos + ((str.bytes.drop pos).takeWhile (· = ch ' ')).length) =
      (str.bytes.drop pos).dropWhile (· = ch ' ') := by
    rw [← List.drop_drop, drop_length_takeWhile]
  have hhead := takeWhile_dropWhile (p := fun b => decide (b = ch ' ')) (str.bytes.drop pos)
  rw [strtok_skip] at h
  generalize hq : pos + ((str.bytes.drop pos).takeWhile (· = ch ' ')).length = q at h hdrop
  cases hd : (str.bytes.drop pos).dropWhile (· = ch ' ') with
  | nil => 
    rw [hd] at hdrop
    simp [strtok, hdrop] at h
  | cons b s =>
    rw [hd] at hdrop hhead hsplit
    have hspace : b ≠ ch ' ' := fun hb => by simp [hb] at hhead
    by_cases h0 : b = 0
    · rw [h0] at hdrop
      simp [strtok_nul hdrop] at h
    · have hin : inToken b := inToken_iff.mpr ⟨hspace, h0⟩
      have hb : str.bytes.drop q = [b] ++ s := hdrop
      rw [strtok_at (List.cons_ne_nil b []) (fun c hc => by rwa [List.mem_singleton.mp hc]) hb] at h
      cases hend : s.dropWhile inToken with
      | nil => simp [hend] at h
      | cons c rest =>
        have hc : ¬inToken c := by
          have hnil := takeWhile_dropWhile (p := inToken) s
          rw [hend] at hnil
          intro hin'
          rw [List.takeWhile_cons_of_pos hin'] at hnil
          cases hnil
        have hs : s = s.takeWhile inToken ++ c :: rest := by rw [← hend, List.takeWhile_append_dropWhile]
        have hword : IsWord ([b] ++ s.takeWhile inToken) := by
          refine ⟨List.cons_ne_nil _ _, fun d hd => ?_⟩
          rcases List.mem_cons.mp hd with rfl | hd
          · exact hin
          · exact List.mem_takeWhile_imp hd
        have hbytes : str.bytes.drop q =
          ([b] ++ s.takeWhile inToken) ++ c :: rest := by rw [hb, List.append_assoc, ← hs]
        have hstop : str.bytes.drop (q + ([b] ++ s.takeWhile inToken).length) = c :: rest := by
          rw [← List.drop_drop, hbytes, List.drop_left]
        have hstarts : Starts (str.bytes.drop pos) ([b] ++ s.takeWhile inToken) c rest := by
          refine ⟨_, hsp, hword, hc, ?_⟩
          rw [← hbytes, hb]
          exact hsplit
        rw [hend] at h
        dsimp only at h
        split_ifs at h with hnul
        · simp only [Except.ok.injEq, Prod.mk.injEq, Option.some.injEq] at h
          obtain ⟨htok, rfl, rfl⟩ := h
          rw [← htok]
          refine ⟨c, rest, hstarts, fun hsp' => ?_, fun _ => ?_⟩
          · exact absurd (hnul.symm.trans hsp') (by decide)
          · rw [hstop, hnul]
        · simp only [Except.ok.injEq, Prod.mk.injEq, Option.some.injEq] at h
          obtain ⟨htok, rfl, rfl⟩ := h
          rw [← htok]
          refine ⟨c, rest, hstarts, fun _ => ?_, fun h0 => absurd h0 hnul⟩
          have hrest : str.bytes.drop (q + ([b] ++ s.takeWhile inToken).length + 1) = rest := by
            rw [← List.drop_drop, hstop]
            rfl
          simpa [Buffer.set, List.drop_set] using hrest

/-- A token that another one follows ends in a space. -/
theorem starts_of_next {p : List Byte} {str'' : Buffer} {pos'' : Nat} (h : strtok str pos = .ok (some tok, str', pos'))
    (hnext : strtok str' pos' = .ok (some p, str'', pos'')) :
    Starts (str.bytes.drop pos) tok (ch ' ') (str'.bytes.drop pos') := by
  obtain ⟨c, rest, hstarts, hspace, hnul⟩ := starts_of_strtok h
  have hc : ¬inToken c := by
    obtain ⟨-, -, -, hc, -⟩ := hstarts
    exact hc
  rcases not_inToken.mp hc with rfl | rfl
  · rw [hspace rfl]
    exact hstarts
  · rw [strtok_nul (hnul rfl)] at hnext
    cases hnext

end Starts

/-- Five tokens that all end. Each of the first four ends in a space. -/
def Five (bytes op name pid rsp rbp : List Byte) : Prop :=
  ∃ r₁ r₂ r₃ r₄ c r₅, Starts bytes op (ch ' ') r₁ ∧ Starts r₁ name (ch ' ') r₂ ∧ Starts r₂ pid (ch ' ') r₃ ∧
    Starts r₃ rsp (ch ' ') r₄ ∧ Starts r₄ rbp c r₅

/-- The request that five tokens make. -/
structure MadeOf (r : Request) (op name pid rsp rbp : List Byte) : Prop where
  op_eq : r.op = op.headD 0
  name_eq : r.funcName.bytes = name
  pid_eq : r.pid = atol pid
  rsp_eq : r.rsp = atol rsp
  rbp_eq : r.rbp = atol rbp
  p_eq : r.p = rbp

section Requests
variable {str str' : Buffer} {op name pid rsp rbp bytes u : List Byte} {malloc : Bool} {r : Request}

theorem Five.append (h : Five bytes op name pid rsp rbp) : Five (bytes ++ u) op name pid rsp rbp := by
  obtain ⟨r₁, r₂, r₃, r₄, c, r₅, h₁, h₂, h₃, h₄, h₅⟩ := h
  exact ⟨_, _, _, _, c, _, h₁.append, h₂.append, h₃.append, h₄.append, h₅.append⟩

/-- Five tokens of a message that bytes without an end follow are tokens of the message. -/
theorem Five.of_append (h : Five (bytes ++ u) op name pid rsp rbp) (hu : ∀ b ∈ u, inToken b) :
    Five bytes op name pid rsp rbp := by
  obtain ⟨r₁, r₂, r₃, r₄, c, r₅, h₁, h₂, h₃, h₄, h₅⟩ := h
  obtain ⟨s₁, rfl, g₁⟩ := h₁.of_append hu
  obtain ⟨s₂, rfl, g₂⟩ := h₂.of_append hu
  obtain ⟨s₃, rfl, g₃⟩ := h₃.of_append hu
  obtain ⟨s₄, rfl, g₄⟩ := h₄.of_append hu
  obtain ⟨s₅, rfl, g₅⟩ := h₅.of_append hu
  exact ⟨s₁, s₂, s₃, s₄, c, s₅, g₁, g₂, g₃, g₄, g₅⟩

theorem Starts.isWord {tok rest : List Byte} {c : Byte} (h : Starts bytes tok c rest) : IsWord tok := by
  obtain ⟨-, -, hw, -⟩ := h
  exact hw

theorem pointee_eq_ok {p : Option (List Byte)} {tok : List Byte} : pointee p = .ok tok ↔ p = some tok := by
  cases p with
  | none => exact iff_of_false (by simp [pointee]) (by simp)
  | some p => simp [pointee]

theorem Starts.length_lt {tok rest : List Byte} {c : Byte} (h : Starts bytes tok c rest) :
    tok.length + rest.length < bytes.length := by
  obtain ⟨sp, -, -, -, rfl⟩ := h
  simp only [List.length_append, List.length_cons]
  omega

theorem Five.length_lt (h : Five bytes op name pid rsp rbp) : name.length < bytes.length := by
  obtain ⟨r₁, r₂, r₃, r₄, c, r₅, h₁, h₂, -⟩ := h
  have hop := h₁.length_lt
  have hname := h₂.length_lt
  omega

theorem CString.eq_of_bytes {a b : CString} (h : a.bytes = b.bytes) : a = b := by
  cases a
  cases b
  cases h
  rfl

/-- The tokens determine the request. -/
theorem MadeOf.unique {r' : Request} (h : MadeOf r op name pid rsp rbp) (h' : MadeOf r' op name pid rsp rbp) :
    r = r' := by
  have hname : r.funcName = r'.funcName := CString.eq_of_bytes (h.name_eq.trans h'.name_eq.symm)
  cases r
  cases r'
  simp only [Request.mk.injEq]
  exact ⟨h.op_eq.trans h'.op_eq.symm, hname, h.pid_eq.trans h'.pid_eq.symm, h.rsp_eq.trans h'.rsp_eq.symm,
    h.rbp_eq.trans h'.rbp_eq.symm, h.p_eq.trans h'.p_eq.symm⟩

/-- Five tokens that end are taken apart. -/
theorem parseRequest_five (h : Five str.bytes op name pid rsp rbp) :
    ∃ r str', parseRequest true str = .ok (r, str') ∧ MadeOf r op name pid rsp rbp := by
  obtain ⟨r₁, r₂, r₃, r₄, c, r₅, h₁, h₂, h₃, h₄, h₅⟩ := h
  have h₁' : Starts (str.bytes.drop 0) op (ch ' ') r₁ := h₁
  obtain ⟨str₁, pos₁, ht₁, hd₁⟩ := strtok_starts h₁'
  rw [← hd₁ rfl] at h₂
  obtain ⟨str₂, pos₂, ht₂, hd₂⟩ := strtok_starts h₂
  rw [← hd₂ rfl] at h₃
  obtain ⟨str₃, pos₃, ht₃, hd₃⟩ := strtok_starts h₃
  rw [← hd₃ rfl] at h₄
  obtain ⟨str₄, pos₄, ht₄, hd₄⟩ := strtok_starts h₄
  rw [← hd₄ rfl] at h₅
  obtain ⟨str₅, pos₅, ht₅, -⟩ := strtok_starts h₅
  obtain ⟨funcName, hcopy, hbytes⟩ := copyName_word h₂.isWord
  unfold parseRequest
  simp only [ht₁, ht₂, ht₃, ht₄, ht₅, hcopy, pointee, bind, Except.bind, pure, Except.pure]
  exact ⟨_, _, rfl, rfl, hbytes, rfl, rfl, rfl, rfl⟩

/-- A request that is taken apart has five tokens that end. -/
theorem five_of_parse (h : parseRequest malloc str = .ok (r, str')) :
    malloc = true ∧ ∃ op name pid rsp rbp, Five str.bytes op name pid rsp rbp := by
  refine ⟨parseRequest_malloc h, ?_⟩
  unfold parseRequest at h
  obtain ⟨⟨p₁, str₁, pos₁⟩, ht₁, h⟩ := bind_eq_ok.mp h
  obtain ⟨q₁, hp₁, h⟩ := bind_eq_ok.mp h
  obtain ⟨⟨p₂, str₂, pos₂⟩, ht₂, h⟩ := bind_eq_ok.mp h
  obtain ⟨q₂, hp₂, h⟩ := bind_eq_ok.mp h
  obtain ⟨funcName, -, h⟩ := bind_eq_ok.mp h
  obtain ⟨⟨p₃, str₃, pos₃⟩, ht₃, h⟩ := bind_eq_ok.mp h
  obtain ⟨q₃, hp₃, h⟩ := bind_eq_ok.mp h
  obtain ⟨⟨p₄, str₄, pos₄⟩, ht₄, h⟩ := bind_eq_ok.mp h
  obtain ⟨q₄, hp₄, h⟩ := bind_eq_ok.mp h
  obtain ⟨⟨p₅, str₅, pos₅⟩, ht₅, h⟩ := bind_eq_ok.mp h
  obtain ⟨q₅, hp₅, -⟩ := bind_eq_ok.mp h
  rw [pointee_eq_ok] at hp₁ hp₂ hp₃ hp₄ hp₅
  rw [hp₁] at ht₁
  rw [hp₂] at ht₂
  rw [hp₃] at ht₃
  rw [hp₄] at ht₄
  rw [hp₅] at ht₅
  obtain ⟨c, rest, h₅, -⟩ := starts_of_strtok ht₅
  exact ⟨q₁, q₂, q₃, q₄, q₅, _, _, _, _, c, rest, starts_of_next ht₁ ht₂, starts_of_next ht₂ ht₃,
    starts_of_next ht₃ ht₄,
    starts_of_next ht₄ ht₅, h₅⟩

end Requests

/-! ### A round -/

/-- The round gets its request from the message alone, whatever the buffer held before, and it goes on to the next
    connection, with the machine `t`. -/
structure GoesOn (s : Machine) (io : Visit) (t : Machine) : Prop where
  replied : ∃ fuel, serveRound fuel io s = some (.ok (t, true))
  alone : ∀ str : Buffer, (parseRequest io.mallocName (io.fill str)).map Prod.fst =
    (parseRequest io.mallocName (io.fill s.str)).map Prod.fst

/-- The key belongs after all entries of its bin, and there are some. -/
def BelongsLast (hashval : BitVec 64) (key : CString) (ht : Hashtable) : Prop :=
  ∃ bin, Picks ht.size hashval key bin ∧ ht.table bin ≠ [] ∧ ∀ e ∈ ht.table bin, past key e

/-- A message is received, with five tokens that end inside it; if the last one starts with an `e`, the page map of the
    process can be opened and the allocations succeed, except that the pair may be lost at the end of a bin; if it
    starts with a `d`, the function is found in the table. -/
def Sound (s : Machine) (io : Visit) : Prop :=
  io.mallocName = true ∧ ∃ msg op key pid rsp rbp, io.received = some msg ∧
    Five msg.bytes op (CString.bytes key) pid rsp rbp ∧
    (rbp.headD 0 = ch 'e' → io.mallocValue = true ∧ (io.mallocPair = true ∨ BelongsLast io.hashval key s.ht) ∧
      io.mallocAreas.isSome ∧ (io.pagemap ((atol pid).setWidth 32)).isSome) ∧
    (rbp.headD 0 = ch 'd' → ∃ fuel v, htGet io.hashval fuel key s.ht = some (some v))

section Round
variable {io : Visit} {s t : Machine} {r : Request} {str : Buffer} {fuel : Nat}

/-- A token that starts with an `e` is no number. -/
theorem atol_e {w : List Byte} (h : w.headD 0 = ch 'e') : atol w = 0 := by
  cases w with
  | nil => exact absurd h (by decide)
  | cons c w =>
    obtain rfl : c = ch 'e' := h
    have hspace : ¬isspace (ch 'e') := by decide
    have hdigit : ¬isdigit (ch 'e') := by decide
    rw [atol, List.dropWhile_cons_of_neg hspace]
    dsimp only
    rw [if_neg (by decide), if_neg (by decide), digitsValue, List.takeWhile_cons_of_neg hdigit]
    rfl

/-- So the range of an `e` request ends at address 0, and `get_stack_areas` has one area to store. -/
theorem getStackAreas_zero (malloc : Option (Fin 10 → Sarea)) (pagemap : Option Pagemap) (topAddr : Addr) :
    (∃ ret, getStackAreas malloc pagemap topAddr 0 = .ok ret) ↔ malloc.isSome ∧ pagemap.isSome := by
  cases malloc with
  | none => simp [getStackAreas]
  | some old =>
    cases pagemap with
    | none => simp [getStackAreas, getPageFrameNumberOfAddress, bind, Except.bind]
    | some pm =>
      have hzero : (0 : Addr).toNat - (topAddr + 1).toNat = 0 := Nat.zero_sub _
      refine iff_of_true ?_ ⟨rfl, rfl⟩
      simp only [getStackAreas, hzero, get_page_frame_number_eq rfl, bind, Except.bind, walkRange, AreaWalk.append]
      exact ⟨_, rfl⟩

theorem htSetChain_malloc {malloc : Bool} {key : CString} {value : List Byte} {chain : List HtEntry} :
    (∃ chain', htSetChain (fun _ => malloc) key value (chain.takeWhile (past key)) (chain.dropWhile (past key)) =
      .ok chain') ↔
      malloc = true ∨ (chain ≠ [] ∧ ∀ e ∈ chain, past key e) := by
  cases hd : chain.dropWhile (past key) with
  | nil =>
    have hall := List.dropWhile_eq_nil_iff.mp hd
    rw [List.takeWhile_eq_self_iff.mpr hall]
    cases malloc with
    | true => simp [htSetChain, htNewpair]
    | false => 
      cases chain with
      | nil => simp [htSetChain, htNewpair]
      | cons next rest => simpa [htSetChain, htNewpair] using hall
  | cons next rest =>
    have hnot : ¬∀ e ∈ chain, past key e := fun hall => by
      rw [List.dropWhile_eq_nil_iff.mpr hall] at hd
      cases hd
    rw [htSetChain]
    by_cases hkey : strcmp key next.key = 0
    · cases malloc <;> simp [hkey, hnot]
    · cases malloc <;> simp [hkey, htNewpair, hnot]

theorem htSet_malloc {hashval : BitVec 64} {malloc : Bool} {key : CString} {value : List Byte} {ht : Hashtable}
    (hkey : key.strlen < 2 ^ 32) :
    (∃ fuel ht', htSet ⟨hashval, fun _ => malloc⟩ fuel key value ht = some (.ok ht')) ↔
    malloc = true ∨ BelongsLast hashval key ht := by
  constructor
  · rintro ⟨fuel, ht', h⟩
    obtain ⟨bin, hbin, h⟩ := Option.map_eq_some_iff.mp h
    obtain ⟨chain, hchain, -⟩ := map_eq_ok.mp h
    exact (htSetChain_malloc.mp ⟨chain, hchain⟩).imp_right fun hlast => ⟨bin, ⟨fuel, hbin⟩, hlast⟩
  · intro hmalloc
    obtain ⟨bin, fuel, hbin⟩ := exists_picks hkey ht.size hashval
    have hstored : malloc = true ∨ (ht.table bin ≠ [] ∧ ∀ e ∈ ht.table bin, past key e) :=
      hmalloc.imp_right fun ⟨bin', hpick, hlast⟩ => by
        obtain rfl := hpick.unique ⟨fuel, hbin⟩
        exact hlast
    obtain ⟨chain, hchain⟩ : ∃ chain, htSetChain (fun _ => malloc) key value ((ht.table bin).takeWhile (past key))
        ((ht.table bin).dropWhile (past key)) = .ok chain := htSetChain_malloc.mpr hstored
    exact ⟨fuel, ht.put bin chain, by rw [htSet, hbin, Option.map_some, hchain]; rfl⟩

/-- A round with a request that starts with an `e`, -/
theorem serveRound_e (hparse : parseRequest io.mallocName (io.fill s.str) = .ok (r, str)) (he : r.p.headD 0 = ch 'e')
    (hrbp : r.rbp = 0) (hname : r.funcName.strlen < 2 ^ 32) :
    (∃ t fuel, serveRound fuel io s = some (.ok (t, true))) ↔
      io.mallocValue = true ∧ (io.mallocPair = true ∨ BelongsLast io.hashval r.funcName s.ht) ∧
        io.mallocAreas.isSome ∧ (io.pagemap (r.pid.setWidth 32)).isSome := by
  simp only [serveRound, hparse, if_pos he, hrbp]
  constructor
  · rintro ⟨t, fuel, h⟩
    split_ifs at h with hvalue
    · obtain ⟨set, hset, h⟩ := Option.map_eq_some_iff.mp h
      obtain ⟨ht, hht, h⟩ := bind_eq_ok (x := set).mp h
      obtain ⟨⟨ret, phys⟩, henc, -⟩ := bind_eq_ok.mp h
      obtain ⟨areas, hareas, -⟩ := bind_eq_ok.mp henc
      exact ⟨hvalue, (htSet_malloc hname).mp ⟨fuel, ht, hht ▸ hset⟩, (getStackAreas_zero _ _ _).mp ⟨areas, hareas⟩⟩
    · simp at h
  · rintro ⟨hvalue, hpair, hareas⟩
    obtain ⟨fuel, ht, hset⟩ : ∃ fuel ht, htSet ⟨io.hashval, fun _ => io.mallocPair⟩ fuel r.funcName
        ((htvalue r.op io.padding r.rsp 0).take 8) s.ht = some (.ok ht) := (htSet_malloc hname).mpr hpair
    obtain ⟨areas, hareas⟩ := (getStackAreas_zero _ _ r.rsp).mpr hareas
    have henc : ∃ ret phys, Pages.encryptStack io.dev io.mallocAreas (io.pagemap (r.pid.setWidth 32)) r.rsp 0 s.phys =
        .ok (ret, phys) := by
      rw [Pages.encryptStack, hareas]
      exact ⟨_, _, rfl⟩
    obtain ⟨ret, phys, henc⟩ := henc
    refine ⟨⟨str, ht, phys⟩, fuel, ?_⟩
    rw [if_pos hvalue, hset, Option.map_some, henc]
    rfl

/-- with a `d`, -/
theorem serveRound_d (hparse : parseRequest io.mallocName (io.fill s.str) = .ok (r, str)) (hd : r.p.headD 0 = ch 'd') :
    (∃ t fuel, serveRound fuel io s = some (.ok (t, true))) ↔
    ∃ fuel v, htGet io.hashval fuel r.funcName s.ht = some (some v) := by
  have he : ¬r.p.headD 0 = ch 'e' := by
    rw [hd]
    decide
  simp only [serveRound, hparse, if_neg he, if_pos hd]
  constructor
  · rintro ⟨t, fuel, h⟩
    obtain ⟨value, hvalue, h⟩ := Option.map_eq_some_iff.mp h
    simp only [Except.ok.injEq, Prod.mk.injEq] at h
    obtain ⟨v, rfl⟩ := Option.isSome_iff_exists.mp h.2
    exact ⟨fuel, v, hvalue⟩
  · rintro ⟨fuel, v, hget⟩
    exact ⟨_, fuel, by rw [hget]; rfl⟩

/-- and with anything else. -/
theorem serveRound_other (hparse : parseRequest io.mallocName (io.fill s.str) = .ok (r, str))
    (he : r.p.headD 0 ≠ ch 'e') (hd : r.p.headD 0 ≠ ch 'd') :
    ∃ t fuel, serveRound fuel io s = some (.ok (t, true)) := by
  simp only [serveRound, hparse, if_neg he, if_neg hd]
  exact ⟨_, 0, rfl⟩

theorem serveRound_parse {x : Machine × Bool} (h : serveRound fuel io s = some (.ok x)) :
    ∃ r str, parseRequest io.mallocName (io.fill s.str) = .ok (r, str) := by
  cases hparse : parseRequest io.mallocName (io.fill s.str) with
  | error f => simp [serveRound, hparse] at h
  | ok y => exact ⟨y.1, y.2, rfl⟩

theorem fill_some {msg : Received} (hrecv : io.received = some msg) (str : Buffer) :
    (io.fill str).bytes = msg.bytes ++ str.bytes.drop msg.bytes.length := by
  rw [Round.fill, hrecv]
  rfl

/-- A request that does not depend on the buffer has its five tokens in the message. -/
theorem five_of_alone (h : ∀ str : Buffer, ∃ str', parseRequest io.mallocName (io.fill str) = .ok (r, str')) :
    io.mallocName = true ∧ ∃ msg op name pid rsp rbp, io.received = some msg ∧ Five msg.bytes op name pid rsp rbp := by
  -- No token ends in a buffer that is full of other bytes.
  obtain ⟨str', hparse⟩ := h (.filled (ch 'A'))
  obtain ⟨hmalloc, op, name, pid, rsp, rbp, hfive⟩ := five_of_parse hparse
  have hfilled : ∀ n, ∀ b ∈ (Buffer.filled (ch 'A')).bytes.drop n, inToken b := by
    intro n b hb
    rw [List.eq_of_mem_replicate (List.mem_of_mem_drop hb)]
    rfl
  refine ⟨hmalloc, ?_⟩
  cases hrecv : io.received with
  | none =>
    have hfill : (io.fill (.filled (ch 'A'))).bytes = [] ++ (Buffer.filled (ch 'A')).bytes.drop 0 := by
      rw [Round.fill, hrecv]
      rfl
    rw [hfill] at hfive
    exact absurd (hfive.of_append (hfilled 0)).length_lt (Nat.not_lt_zero _)
  | some msg =>
    rw [fill_some hrecv] at hfive
    exact ⟨msg, op, name, pid, rsp, rbp, rfl, hfive.of_append (hfilled _)⟩

/-- What a round with five tokens needs to go on. -/
theorem replied_iff {op pid rsp rbp : List Byte} {key : CString} (hkey : key.strlen < 2 ^ 32)
    (hparse : parseRequest io.mallocName (io.fill s.str) = .ok (r, str)) (hmade : MadeOf r op key.bytes pid rsp rbp) :
    (∃ t fuel, serveRound fuel io s = some (.ok (t, true))) ↔
      (rbp.headD 0 = ch 'e' → io.mallocValue = true ∧ (io.mallocPair = true ∨ BelongsLast io.hashval key s.ht) ∧
        io.mallocAreas.isSome ∧ (io.pagemap ((atol pid).setWidth 32)).isSome) ∧
      (rbp.headD 0 = ch 'd' → ∃ fuel v, htGet io.hashval fuel key s.ht = some (some v)) := by
  have hed : ch 'e' ≠ ch 'd' := by decide
  obtain rfl : r.funcName = key := CString.eq_of_bytes hmade.name_eq
  rw [← hmade.p_eq, ← hmade.pid_eq]
  by_cases he : r.p.headD 0 = ch 'e'
  · have hrbp : r.rbp = 0 := by
      rw [hmade.rbp_eq, ← hmade.p_eq]
      exact atol_e he
    rw [serveRound_e hparse he hrbp hkey, he]
    exact ⟨fun h => ⟨fun _ => h, fun hd => absurd hd hed⟩, fun h => h.1 rfl⟩
  · by_cases hd : r.p.headD 0 = ch 'd'
    · rw [serveRound_d hparse hd, hd]
      exact ⟨fun h => ⟨fun he => absurd he hed.symm, fun _ => h⟩, fun h => h.2 rfl⟩
    · exact iff_of_true (serveRound_other hparse he hd) ⟨fun h => absurd h he, fun h => absurd h hd⟩

theorem Five.strlen_lt {msg : Received} {op pid rsp rbp : List Byte} {key : CString}
    (h : Five msg.bytes op key.bytes pid rsp rbp) :
    key.strlen < 2 ^ 32 := by
  have hlt : key.strlen < msg.bytes.length := h.length_lt
  have hfits := msg.fits
  omega

/-- A round goes on, with a request of its own, if and only if it is sound. -/
theorem goes_on_iff : (∃ t, GoesOn s io t) ↔ Sound s io := by
  constructor
  · rintro ⟨t, ⟨fuel, hserve⟩, halone⟩
    obtain ⟨r, str, hparse⟩ := serveRound_parse hserve
    rw [hparse] at halone
    obtain ⟨hmalloc, msg, op, name, pid, rsp, rbp, hrecv, hfive⟩ := five_of_alone (r := r) fun str' => by
      obtain ⟨⟨r', str''⟩, hok, hr⟩ := map_eq_ok.mp (halone str')
      obtain rfl : r' = r := hr
      exact ⟨str'', hok⟩
    have hfill : Five (io.fill s.str).bytes op name pid rsp rbp := by
      rw [fill_some hrecv]
      exact hfive.append
    obtain ⟨r', str', hok, hmade⟩ := parseRequest_five hfill
    rw [← hmalloc] at hok
    obtain rfl := hmade.name_eq
    exact ⟨hmalloc, msg, op, r'.funcName, pid, rsp, rbp, hrecv, hfive,
      (replied_iff hfive.strlen_lt hok hmade).mp ⟨t, fuel, hserve⟩⟩
  · rintro ⟨hmalloc, msg, op, key, pid, rsp, rbp, hrecv, hfive, hgo⟩
    have hparse : ∀ str : Buffer, ∃ r str', parseRequest io.mallocName (io.fill str) = .ok (r, str') ∧
        MadeOf r op key.bytes pid rsp rbp := by
      intro str
      rw [hmalloc]
      refine parseRequest_five ?_
      rw [fill_some hrecv]
      exact hfive.append
    obtain ⟨r, str, hok, hmade⟩ := hparse s.str
    obtain ⟨t, fuel, hserve⟩ := (replied_iff hfive.strlen_lt hok hmade).mpr hgo
    refine ⟨t, ⟨fuel, hserve⟩, fun str' => ?_⟩
    obtain ⟨r', str'', hok', hmade'⟩ := hparse str'
    rw [hok, hok']
    exact congrArg Except.ok (hmade'.unique hmade)

/-- Enough tests are enough. -/
theorem serveRound_mono {fuel' : Nat} {x : Except Fault (Machine × Bool)} (hle : fuel ≤ fuel')
    (h : serveRound fuel io s = some x) :
    serveRound fuel' io s = some x := by
  unfold serveRound at h ⊢
  cases hparse : parseRequest io.mallocName (io.fill s.str) with
  | error f =>
    rw [hparse] at h
    exact h
  | ok y =>
    rw [hparse] at h
    dsimp only at h ⊢
    split_ifs at h ⊢ with he hvalue hd
    · obtain ⟨set, hset, rfl⟩ := Option.map_eq_some_iff.mp h
      exact Option.map_eq_some_iff.mpr ⟨set, htSet_mono hle hset, rfl⟩
    · exact h
    · obtain ⟨value, hget, rfl⟩ := Option.map_eq_some_iff.mp h
      exact Option.map_eq_some_iff.mpr ⟨value, htGet_mono hle hget, rfl⟩
    · exact h

theorem GoesOn.unique {t' : Machine} (h : GoesOn s io t) (h' : GoesOn s io t') : t = t' := by
  obtain ⟨fuel, h⟩ := h.replied
  obtain ⟨fuel', h'⟩ := h'.replied
  have hmax := serveRound_mono (Nat.le_max_left fuel fuel') h
  rw [serveRound_mono (Nat.le_max_right fuel fuel') h'] at hmax
  simp only [Option.some.injEq, Except.ok.injEq, Prod.mk.injEq, and_true] at hmax
  exact hmax.symm

end Round

/-! ### Sequences of rounds -/

/-- The server takes all these visits, each with a request of its own. -/
def TakesAll (s : Machine) (ios : List Visit) : Prop := ∃ tr t, Run GoesOn s tr t ∧ tr.map Prod.snd = ios

theorem takesAll_iff_goesOn {s : Machine} {ios : List Visit} : TakesAll s ios ↔
    ∀ pre io post tr t, ios = pre ++ io :: post → Run GoesOn s tr t → tr.map Prod.snd = pre → ∃ t', GoesOn t io t' := by
  have hdet : ∀ s io t t', GoesOn s io t → GoesOn s io t' → t = t' := fun _ _ _ _ => GoesOn.unique
  exact Run.exists_iff hdet

/-- From every state and for every sequence of visits, the server goes on after each of them if and only if each is
    sound in the state that the ones before it lead to. -/
theorem takes_all_iff (s : Machine) (ios : List Visit) : TakesAll s ios ↔
    ∀ pre io post tr t, ios = pre ++ io :: post → Run GoesOn s tr t → tr.map Prod.snd = pre → Sound t io := by
  rw [takesAll_iff_goesOn]
  simp only [goes_on_iff]

/-- The server before its first round, when `str` happens to hold zeros. -/
def Machine.sample : Machine where
  str := .filled 0
  ht := ⟨10, fun _ => []⟩
  phys := ⟨fun _ => 0, fun _ => 0, []⟩

/-- A connection that is closed without a message. -/
def Visit.empty : Visit where
  received := some ⟨[], Nat.zero_le _⟩
  mallocName := true
  mallocValue := true
  padding _ := 0
  hashval := 0
  mallocPair := true
  mallocAreas := none
  pagemap _ := none
  dev := ⟨0, fun _ => false, fun _ => false⟩

/-- The server follows the missing token. -/
theorem empty_message_crashes :
    serveRound 0 .empty .sample = some (.error .nullDeref) ∧ ¬TakesAll .sample [.empty] := by
  refine ⟨rfl, fun hall => ?_⟩
  obtain ⟨t, hs⟩ := takesAll_iff_goesOn.mp hall [] .empty [] [] .sample rfl .nil rfl
  obtain ⟨-, msg, op, key, pid, rsp, rbp, hrecv, hfive, -⟩ := goes_on_iff.mp ⟨t, hs⟩
  obtain rfl := Option.some.inj hrecv
  exact absurd hfive.length_lt (Nat.not_lt_zero _)

end StackVault
