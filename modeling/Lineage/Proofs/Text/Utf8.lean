import Lineage.Text.Utf8

/-! Bytes make a text exactly if they are the bytes of that text. -/

namespace Lineage.Text

variable {bytes : List UInt8} {value byte : Nat} {lead : LeadByte}

theorem followingBits_zero {least most bits : Nat} :
    followingBits least most bits 0 bytes = .ok value ↔ value = bits := by
  rw [followingBits, Except.ok.injEq, eq_comm]

/-- The next byte lies within its bounds and adds six bits. -/
theorem followingBits_succ {least most bits more : Nat} :
    followingBits least most bits (more + 1) bytes = .ok value ↔
      ∃ byte rest, bytes = byte :: rest ∧ (least ≤ byte.toNat ∧ byte.toNat ≤ most) ∧
        followingBits 0x80 0xBF (bits * 64 + byte.toNat % 64) more rest = .ok value := by
  constructor
  · intro followed
    cases bytes with
    | nil => simp [followingBits] at followed
    | cons byte rest =>
      rw [followingBits] at followed
      split at followed
      · rename_i within
        -- A fault further on only gets a higher count on the way back.
        cases behind : followingBits 0x80 0xBF (bits * 64 + byte.toNat % 64) more rest with
        | ok found =>
          rw [behind] at followed
          exact ⟨byte, rest, rfl, by simpa using within, by rw [behind, ← followed]⟩
        | error fault =>
          rw [behind] at followed
          cases followed
      · cases followed
  · rintro ⟨byte, rest, rfl, within, followed⟩
    rw [followingBits, if_pos (by simpa using within), followed]

/-- A code point is the code point of the character that it makes. -/
theorem toNat_charOfNat (valid : value.isValidChar) : (Char.ofNat value).val.toNat = value := by
  have made : Char.ofNat value = Char.ofNatAux value valid := dif_pos valid
  rw [made]
  exact BitVec.toNat_ofNatLT ..

/-- The bytes of a character by the size of its code point. -/
theorem utf8EncodeChar_eq (c : Char) :
    String.utf8EncodeChar c =
      if c.val.toNat ≤ 127 then [UInt8.ofNat c.val.toNat]
      else if c.val.toNat ≤ 2047 then
        [UInt8.ofNat (c.val.toNat / 64 % 32 + 192), UInt8.ofNat (c.val.toNat % 64 + 128)]
      else if c.val.toNat ≤ 65535 then
        [UInt8.ofNat (c.val.toNat / 4096 % 16 + 224), UInt8.ofNat (c.val.toNat / 64 % 64 + 128),
          UInt8.ofNat (c.val.toNat % 64 + 128)]
      else
        [UInt8.ofNat (c.val.toNat / 262144 % 8 + 240), UInt8.ofNat (c.val.toNat / 4096 % 64 + 128),
          UInt8.ofNat (c.val.toNat / 64 % 64 + 128), UInt8.ofNat (c.val.toNat % 64 + 128)] :=
  rfl

/-- A byte is the one with its number. -/
theorem ofNat_eq_byte {byte : UInt8} (same : value = byte.toNat) : UInt8.ofNat value = byte := by
  rw [same, UInt8.ofNat_toNat]

/-- What the first byte of a character of two, three or four bytes says: how many bytes follow, and
the bits that it begins with. The bounds of the next byte rule out what has a shorter form and what
is no character. -/
inductive Leads : Nat → LeadByte → Prop where
  | two {bits : Nat} (least : 2 ≤ bits) (most : bits < 32) : Leads (192 + bits) ⟨1, 128, 191, bits⟩
  | three {bits : Nat} (most : bits < 16) :
    Leads (224 + bits) ⟨2, if bits = 0 then 160 else 128, if bits = 13 then 159 else 191, bits⟩
  | four {bits : Nat} (most : bits < 5) :
    Leads (240 + bits) ⟨3, if bits = 0 then 144 else 128, if bits = 4 then 143 else 191, bits⟩

/-- A byte that leads is recognized with its bounds. -/
theorem leadByte?_of_leads (leads : Leads byte lead) : leadByte? byte = some lead := by
  cases leads with
  | two least most =>
    rw [leadByte?, if_pos (by simp only [Bool.and_eq_true, decide_eq_true_eq]; omega),
      Nat.add_sub_cancel_left]
  | @three bits most =>
    by_cases first : bits = 0
    · subst first
      rfl
    by_cases surrogates : bits = 13
    · subst surrogates
      rfl
    -- All other lead bytes of three leave the next byte free.
    simp only [leadByte?, Bool.and_eq_true, decide_eq_true_eq, beq_iff_eq]
    rw [if_neg (by omega), if_neg (by omega), if_neg (by omega), if_pos (by omega), if_neg first,
      if_neg surrogates, Nat.add_sub_cancel_left]
  | @four bits most =>
    by_cases first : bits = 0
    · subst first
      rfl
    by_cases last : bits = 4
    · subst last
      rfl
    simp only [leadByte?, Bool.and_eq_true, decide_eq_true_eq, beq_iff_eq]
    rw [if_neg (by omega), if_neg (by omega), if_neg (by omega), if_neg (by omega),
      if_neg (by omega), if_neg (by omega), if_pos (by omega), if_neg first, if_neg last,
      Nat.add_sub_cancel_left]

/-- A byte that is recognized leads. -/
theorem leads_of_leadByte? (led : leadByte? byte = some lead) : Leads byte lead := by
  -- Case by case, in the order in which the bytes are compared; two and two bounds are special.
  unfold leadByte? at led
  simp only [Bool.and_eq_true, decide_eq_true_eq, beq_iff_eq] at led
  split at led
  · cases led
    obtain ⟨bits, rfl⟩ : ∃ bits, byte = 192 + bits := ⟨byte - 192, by omega⟩
    rw [Nat.add_sub_cancel_left]
    exact .two (by omega) (by omega)
  split at led
  · cases led
    subst byte
    exact @Leads.three 0 (by omega)
  split at led
  · cases led
    subst byte
    exact @Leads.three 13 (by omega)
  split at led
  · cases led
    obtain ⟨bits, rfl⟩ : ∃ bits, byte = 224 + bits := ⟨byte - 224, by omega⟩
    have general := @Leads.three bits (by omega)
    rw [if_neg (by omega), if_neg (by omega)] at general
    rw [Nat.add_sub_cancel_left]
    exact general
  split at led
  · cases led
    subst byte
    exact @Leads.four 0 (by omega)
  split at led
  · cases led
    subst byte
    exact @Leads.four 4 (by omega)
  split at led
  · cases led
    obtain ⟨bits, rfl⟩ : ∃ bits, byte = 240 + bits := ⟨byte - 240, by omega⟩
    have general := @Leads.four bits (by omega)
    rw [if_neg (by omega), if_neg (by omega)] at general
    rw [Nat.add_sub_cancel_left]
    exact general
  · cases led

/-- What a lead byte and the bytes that fit behind it make is a character with just these bytes. -/
theorem utf8EncodeChar_of_leads {byte : UInt8} {rest : List UInt8} (leads : Leads byte.toNat lead)
    (followed : followingBits lead.least lead.most lead.bits lead.following rest = .ok value) :
    String.utf8EncodeChar (Char.ofNat value) = byte :: rest.take lead.following := by
  generalize number : byte.toNat = first at leads
  -- In each case the bytes that follow are named, and the code point is the sum of their bits.
  cases leads with
  | two least most =>
    obtain ⟨one, tail, rfl, within, followed⟩ := followingBits_succ.1 followed
    have sum := followingBits_zero.1 followed
    dsimp only at within sum
    have valid : value.isValidChar := Or.inl (by omega)
    rw [utf8EncodeChar_eq, toNat_charOfNat valid, if_neg (by omega), if_pos (by omega),
      ofNat_eq_byte (show _ = byte.toNat by omega), ofNat_eq_byte (show _ = one.toNat by omega)]
    rfl
  | @three bits most =>
    obtain ⟨one, tail, rfl, within, followed⟩ := followingBits_succ.1 followed
    obtain ⟨two, tail, rfl, within', followed⟩ := followingBits_succ.1 followed
    have sum := followingBits_zero.1 followed
    dsimp only at within sum
    have valid : value.isValidChar := by
      unfold Nat.isValidChar
      split at within <;> split at within <;> omega
    have long : 2047 < value := by
      split at within <;> split at within <;> omega
    have plain : 128 ≤ one.toNat ∧ one.toNat ≤ 191 := by
      split at within <;> split at within <;> omega
    rw [utf8EncodeChar_eq, toNat_charOfNat valid, if_neg (by omega), if_neg (by omega),
      if_pos (by omega), ofNat_eq_byte (show _ = byte.toNat by omega),
      ofNat_eq_byte (show _ = one.toNat by omega),
      ofNat_eq_byte (show _ = two.toNat by omega)]
    rfl
  | @four bits most =>
    obtain ⟨one, tail, rfl, within, followed⟩ := followingBits_succ.1 followed
    obtain ⟨two, tail, rfl, within', followed⟩ := followingBits_succ.1 followed
    obtain ⟨three, tail, rfl, within'', followed⟩ := followingBits_succ.1 followed
    have sum := followingBits_zero.1 followed
    dsimp only at within sum
    have valid : value.isValidChar := by
      unfold Nat.isValidChar
      split at within <;> split at within <;> omega
    have long : 65535 < value := by
      split at within <;> split at within <;> omega
    have plain : 128 ≤ one.toNat ∧ one.toNat ≤ 191 := by
      split at within <;> split at within <;> omega
    rw [utf8EncodeChar_eq, toNat_charOfNat valid, if_neg (by omega), if_neg (by omega),
      if_neg (by omega), ofNat_eq_byte (show _ = byte.toNat by omega),
      ofNat_eq_byte (show _ = one.toNat by omega),
      ofNat_eq_byte (show _ = two.toNat by omega), ofNat_eq_byte (show _ = three.toNat by omega)]
    rfl

theorem toNat_byteOfNat (small : value < 256) : (UInt8.ofNat value).toNat = value := by
  rw [UInt8.toNat_ofNat', Nat.mod_eq_of_lt small]

/-- The bytes of a character outside ASCII are a lead byte and what fits behind it. -/
theorem exists_leads_utf8EncodeChar {c : Char} (long : 127 < c.val.toNat) :
    ∃ byte lead tail, String.utf8EncodeChar c = byte :: tail ∧ Leads byte.toNat lead ∧
      tail.length = lead.following ∧
      ∀ rest, followingBits lead.least lead.most lead.bits lead.following
        (tail ++ rest) = .ok c.val.toNat := by
  have valid : c.val.toNat.isValidChar := c.valid
  unfold Nat.isValidChar at valid
  rw [utf8EncodeChar_eq, if_neg (by omega)]
  generalize c.val.toNat = value at long valid
  split
  · have leads := @Leads.two (value / 64 % 32) (by omega) (by omega)
    rw [Nat.add_comm, ← toNat_byteOfNat (show value / 64 % 32 + 192 < 256 by omega)] at leads
    refine ⟨_, _, _, rfl, leads, rfl, fun rest => ?_⟩
    dsimp only
    refine followingBits_succ.2 ⟨_, rest, rfl, ?_, followingBits_zero.2 ?_⟩
    · rw [toNat_byteOfNat (by omega)]
      omega
    · rw [toNat_byteOfNat (by omega)]
      omega
  split
  · have leads := @Leads.three (value / 4096 % 16) (by omega)
    rw [Nat.add_comm, ← toNat_byteOfNat (show value / 4096 % 16 + 224 < 256 by omega)] at leads
    refine ⟨_, _, _, rfl, leads, rfl, fun rest => ?_⟩
    dsimp only
    refine followingBits_succ.2 ⟨_, _, rfl, ?_,
      followingBits_succ.2 ⟨_, rest, rfl, ?_, followingBits_zero.2 ?_⟩⟩
    · rw [toNat_byteOfNat (by omega)]
      -- A first byte of zero bits leaves two thousand code points to the shorter form, and the
      -- surrogates are out.
      split <;> split <;> omega
    · rw [toNat_byteOfNat (by omega)]
      omega
    · rw [toNat_byteOfNat (by omega), toNat_byteOfNat (by omega)]
      omega
  · have leads := @Leads.four (value / 262144 % 8) (by omega)
    rw [Nat.add_comm, ← toNat_byteOfNat (show value / 262144 % 8 + 240 < 256 by omega)] at leads
    refine ⟨_, _, _, rfl, leads, rfl, fun rest => ?_⟩
    dsimp only
    refine followingBits_succ.2 ⟨_, _, rfl, ?_, followingBits_succ.2 ⟨_, _, rfl, ?_,
      followingBits_succ.2 ⟨_, rest, rfl, ?_, followingBits_zero.2 ?_⟩⟩⟩
    · rw [toNat_byteOfNat (by omega)]
      split <;> split <;> omega
    · rw [toNat_byteOfNat (by omega)]
      omega
    · rw [toNat_byteOfNat (by omega)]
      omega
    · rw [toNat_byteOfNat (by omega), toNat_byteOfNat (by omega), toNat_byteOfNat (by omega)]
      omega

theorem le_of_leads (leads : Leads byte lead) : 128 ≤ byte := by
  cases leads <;> omega

/-- The bytes of a character in front are read as this character. -/
theorem decodeFrom_utf8EncodeChar_append (position : Nat) (c : Char) (rest : List UInt8) :
    ∃ next, decodeFrom position (String.utf8EncodeChar c ++ rest) =
      (decodeFrom next rest).map (c :: ·) := by
  -- A short character is one byte, and any other has a byte that leads and those that follow.
  by_cases short : c.val.toNat ≤ 127
  · refine ⟨position + 1, ?_⟩
    rw [utf8EncodeChar_eq, if_pos short, List.singleton_append, decodeFrom]
    rw [toNat_byteOfNat (by omega), if_pos (by omega)]
    rw [show Char.ofNat c.val.toNat = c from Char.ofNat_toNat c]
  · obtain ⟨byte, lead, tail, bytes, leads, count, followed⟩ :=
      exists_leads_utf8EncodeChar (Nat.lt_of_not_le short)
    refine ⟨position + lead.following + 1, ?_⟩
    rw [bytes, List.cons_append, decodeFrom]
    have high := le_of_leads leads
    rw [if_neg (by omega), leadByte?_of_leads leads]
    simp only [followed]
    rw [← count, List.drop_left]
    rw [show Char.ofNat c.val.toNat = c from Char.ofNat_toNat c]

/-- What is encoded is decoded to the text. -/
theorem decodeFrom_encode (position : Nat) (text : List Char) :
    decodeFrom position (encode text) = .ok text := by
  induction text generalizing position with
  | nil => simp [encode, decodeFrom]
  | cons c text ih =>
    obtain ⟨next, front⟩ := decodeFrom_utf8EncodeChar_append position c (encode text)
    rw [encode, List.flatMap_cons]
    rw [encode] at front ih
    rw [front, ih]
    rfl

/-- What can be decoded is the encoding of the result. -/
theorem eq_encode_of_decodeFrom {position : Nat} {text : List Char}
    (decoded : decodeFrom position bytes = .ok text) : bytes = encode text := by
  fun_induction decodeFrom position bytes generalizing text with
  | case1 position =>
    cases decoded
    rfl
  | case2 position byte rest short ih =>
    -- A byte of ASCII is the character itself.
    cases behind : decodeFrom (position + 1) rest with
    | error fault =>
      rw [behind] at decoded
      cases decoded
    | ok more =>
      rw [behind] at decoded
      cases decoded
      rw [encode, List.flatMap_cons, utf8EncodeChar_eq, toNat_charOfNat (Or.inl (by omega)),
        if_pos (by omega), UInt8.ofNat_toNat, ih behind]
      rfl
  | case3 position byte rest long none => cases decoded
  | case4 position byte rest long lead led count reason stopped => cases decoded
  | case5 position byte rest long lead led value followed ih =>
    cases behind : decodeFrom (position + lead.following + 1) (rest.drop lead.following) with
    | error fault =>
      rw [behind] at decoded
      cases decoded
    | ok more =>
      rw [behind] at decoded
      cases decoded
      have front := utf8EncodeChar_of_leads (leads_of_leadByte? led) followed
      have back := ih behind
      rw [encode] at back
      rw [encode, List.flatMap_cons, front, ← back, List.cons_append, List.take_append_drop]

/-- Bytes make a text exactly if they are the bytes of that text. -/
theorem decode_eq_ok_iff {text : List Char} : decode bytes = .ok text ↔ bytes = encode text := by
  refine ⟨eq_encode_of_decodeFrom, ?_⟩
  rintro rfl
  exact decodeFrom_encode 0 text

@[simp] theorem decode_encode (text : List Char) : decode (encode text) = .ok text :=
  decode_eq_ok_iff.2 rfl

/-- No two texts have the same bytes. -/
theorem encode_inj {one other : List Char} : encode one = encode other ↔ one = other := by
  rw [← decode_eq_ok_iff, decode_encode, Except.ok.injEq]

/-- Bytes that make no text are not the bytes of any text. -/
theorem ne_encode_of_decode {fault : Utf8Fault} (undecoded : decode bytes = .error fault)
    (text : List Char) : bytes ≠ encode text := by
  intro same
  rw [decode_eq_ok_iff.2 same] at undecoded
  cases undecoded

end Lineage.Text
