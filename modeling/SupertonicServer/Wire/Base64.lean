import SupertonicServer.Wire.Message

/-!
# Base64, read back

`_decode_chunk_data`: `base64.b64decode` in its default, lenient mode, as the loop of
`binascii.a2b_base64` over the characters. Characters outside of the alphabet are passed over,
and padding ends the data as soon as it completes a group. Reading what `b64encode` wrote gives
the bytes back, also when other characters have been put in between (`b64decode_noise`).
-/

namespace SupertonicServer.Wire

/-- `table_a2b_base64`. -/
def base64Value (c : Char) : Option Nat := base64Alphabet.findIdx? (· == c)

/-- The state of the loop: the bytes so far, the place in the group of four, the bits left
over, and the padding seen. -/
structure Quad where
  out : Bytes
  quadPos : Nat
  leftchar : Nat
  pads : Nat

/-- The loop on a digit. -/
def Quad.add (q : Quad) (v : Nat) : Quad :=
  match q.quadPos with
  | 0 => { q with quadPos := 1, leftchar := v, pads := 0 }
  | 1 =>
    { out := q.out ++ [BitVec.ofNat 8 (q.leftchar * 4 + v / 16)]
      quadPos := 2, leftchar := v % 16, pads := 0 }
  | 2 =>
    { out := q.out ++ [BitVec.ofNat 8 (q.leftchar * 16 + v / 4)]
      quadPos := 3, leftchar := v % 4, pads := 0 }
  | _ =>
    { out := q.out ++ [BitVec.ofNat 8 (q.leftchar * 64 + v)]
      quadPos := 0, leftchar := 0, pads := 0 }

/-- `a2b_base64` from a state on. -/
def a2bBase64 (q : Quad) : List Char → Except String Bytes
  | [] =>
    if q.quadPos = 0 then .ok q.out
    else if q.quadPos = 1 then
      .error (s!"Invalid base64-encoded string: number of data characters " ++
        s!"({q.out.length / 3 * 4 + 1}) cannot be 1 more than a multiple of 4")
    else .error "Incorrect padding"
  | c :: rest =>
    if c = '=' then
      if 2 ≤ q.quadPos then
        -- padding that completes the group ends the data
        if 4 ≤ q.quadPos + (q.pads + 1) then .ok q.out
        else a2bBase64 { q with pads := q.pads + 1 } rest
      else a2bBase64 q rest
    else
      match base64Value c with
      | none => a2bBase64 q rest
      | some v => a2bBase64 (q.add v) rest

/-- `base64.b64decode` of a `str`. -/
def b64decode (s : List Char) : Except String Bytes :=
  if s.all fun c => c.toNat < 128 then
    a2bBase64 { out := [], quadPos := 0, leftchar := 0, pads := 0 } s
  else .error "string argument should contain only ASCII characters"

/-! ## The digits -/

theorem base64Digit_spec (n : Nat) :
    base64Digit n ≠ '=' ∧ base64Value (base64Digit n) = some (n % 64) ∧
      (base64Digit n).toNat < 128 := by
  have hall : ∀ d < 64, base64Alphabet.getD d '=' ≠ '=' ∧
      base64Value (base64Alphabet.getD d '=') = some d ∧
      (base64Alphabet.getD d '=').toNat < 128 := by
    decide +kernel
  exact hall (n % 64) (Nat.mod_lt n (by decide))

@[simp] theorem a2bBase64_digit (q : Quad) (n : Nat) (rest : List Char) :
    a2bBase64 q (base64Digit n :: rest) = a2bBase64 (q.add (n % 64)) rest := by
  obtain ⟨hpad, hvalue, -⟩ := base64Digit_spec n
  rw [a2bBase64, if_neg hpad, hvalue]

/-- Padding that completes the group. -/
theorem a2bBase64_pad {q : Quad} (hq : 2 ≤ q.quadPos) (hlast : 4 ≤ q.quadPos + (q.pads + 1))
    (rest : List Char) : a2bBase64 q ('=' :: rest) = .ok q.out := by
  rw [a2bBase64, if_pos rfl, if_pos hq, if_pos hlast]

/-- The first of two padding characters. -/
theorem a2bBase64_padOne {q : Quad} (hq : q.quadPos = 2) (hpads : q.pads = 0)
    (rest : List Char) :
    a2bBase64 q ('=' :: rest) = a2bBase64 { q with pads := 1 } rest := by
  rw [a2bBase64, if_pos rfl, if_pos (by omega), if_neg (by omega), hpads]

/-- A byte put together from the bits of its number. -/
theorem ofNat_byte {k : Nat} {a : BitVec 8} (h : k = a.toNat) : BitVec.ofNat 8 k = a := by
  rw [h, BitVec.ofNat_toNat, BitVec.setWidth_eq]

/-- From the start of a group the loop reads the bytes that were written. -/
theorem a2bBase64_b64encode (bs : Bytes) : ∀ q : Quad, q.quadPos = 0 →
    a2bBase64 q (b64encode bs) = .ok (q.out ++ bs) := by
  -- three bytes at a time, as they were written
  induction bs using b64encode.induct with
  | case1 =>
    intro q hq
    rw [b64encode, a2bBase64, if_pos hq, List.append_nil]
  | case2 a =>
    intro q hq
    have ha := a.isLt
    have hbyte : BitVec.ofNat 8 (a.toNat * 16 / 64 % 64 * 4 + a.toNat * 16 % 64 / 16) = a :=
      ofNat_byte (by omega)
    simp only [b64encode, a2bBase64_digit, Quad.add, hq]
    rw [a2bBase64_padOne rfl rfl, a2bBase64_pad (by simp) (by simp), hbyte]
  | case3 a b =>
    intro q hq
    have ha := a.isLt
    have hb := b.isLt
    obtain ⟨n, hn⟩ : ∃ n, n = (a.toNat * 256 + b.toNat) * 4 := ⟨_, rfl⟩
    have hbyte₁ : BitVec.ofNat 8 (n / 4096 % 64 * 4 + n / 64 % 64 / 16) = a :=
      ofNat_byte (by omega)
    have hbyte₂ : BitVec.ofNat 8 (n / 64 % 64 % 16 * 16 + n % 64 / 4) = b :=
      ofNat_byte (by omega)
    rw [b64encode, ← hn]
    simp only [a2bBase64_digit, Quad.add, hq]
    rw [a2bBase64_pad (by simp) (by simp), hbyte₁, hbyte₂, List.append_assoc]
    rfl
  | case4 a b c rest ih =>
    intro q hq
    have ha := a.isLt
    have hb := b.isLt
    have hc := c.isLt
    obtain ⟨n, hn⟩ : ∃ n, n = (a.toNat * 256 + b.toNat) * 256 + c.toNat := ⟨_, rfl⟩
    have hbyte₁ : BitVec.ofNat 8 (n / 262144 % 64 * 4 + n / 4096 % 64 / 16) = a :=
      ofNat_byte (by omega)
    have hbyte₂ : BitVec.ofNat 8 (n / 4096 % 64 % 16 * 16 + n / 64 % 64 / 4) = b :=
      ofNat_byte (by omega)
    have hbyte₃ : BitVec.ofNat 8 (n / 64 % 64 % 4 * 64 + n % 64) = c :=
      ofNat_byte (by omega)
    rw [b64encode, ← hn]
    simp only [a2bBase64_digit, Quad.add, hq]
    rw [ih _ rfl, hbyte₁, hbyte₂, hbyte₃]
    simp

/-! ## Other characters -/

/-- The characters the loop looks at. -/
def significant (c : Char) : Bool := c == '=' || (base64Value c).isSome

theorem a2bBase64_filter (q : Quad) (s : List Char) :
    a2bBase64 q (s.filter significant) = a2bBase64 q s := by
  induction s generalizing q with
  | nil => rfl
  | cons c s ih =>
    rw [List.filter_cons]
    by_cases hpad : c = '='
    · rw [if_pos (by simp [significant, hpad]), a2bBase64, a2bBase64, if_pos hpad, if_pos hpad,
        ih, ih]
    · cases hvalue : base64Value c with
      | none =>
        rw [if_neg (by simp [significant, hpad, hvalue]), ih, a2bBase64, if_neg hpad, hvalue]
      | some v =>
        rw [if_pos (by simp [significant, hvalue]), a2bBase64, a2bBase64, if_neg hpad, if_neg hpad,
          hvalue]
        exact ih _

theorem b64encode_ascii (bs : Bytes) : ∀ c ∈ b64encode bs, c.toNat < 128 := by
  have hdigit := fun n => (base64Digit_spec n).2.2
  induction bs using b64encode.induct with
  | case1 => simp [b64encode]
  | case2 a => simp [b64encode, hdigit]
  | case3 a b => simp [b64encode, hdigit]
  | case4 a b c rest ih =>
    rw [b64encode]
    simp only [List.mem_cons]
    intro c hc
    rcases hc with rfl | rfl | rfl | rfl | hc
    · exact hdigit _
    · exact hdigit _
    · exact hdigit _
    · exact hdigit _
    · exact ih c hc

/-- Encoded bytes read back. -/
theorem b64decode_b64encode (bs : Bytes) : b64decode (b64encode bs) = .ok bs := by
  rw [b64decode, if_pos (by simpa using b64encode_ascii bs), a2bBase64_b64encode bs _ rfl]
  rfl

/-- **Encoded bytes read back**, also from an ASCII text in which characters that are neither
digits nor padding stand anywhere among the encoded ones. -/
theorem b64decode_noise {bs : Bytes} {s : List Char} (hascii : ∀ c ∈ s, c.toNat < 128)
    (hs : s.filter significant = b64encode bs) : b64decode s = .ok bs := by
  rw [b64decode, if_pos (by simpa using hascii), ← a2bBase64_filter, hs,
    a2bBase64_b64encode bs _ rfl]
  rfl

/-- Two bytes, in lines and with a blank in front of the padding. -/
theorem b64decode_noise_two_bytes :
    b64decode ['/', '\n', 'w', '\n', 'E', ' ', '='] = .ok [0xff, 0x01] :=
  b64decode_noise (by simp) (by decide +kernel)

end SupertonicServer.Wire
