import Mathlib.Algebra.Order.Ring.Int
import Mathlib.Data.String.Basic

/-!
# Bytes, UTF-8 and big-endian lengths

Byte strings are lists. A text is a `String`, that is a sequence of Unicode
scalar values, and `utf8` is its encoding; `decodeChar` reads one character back
and refuses what no character encodes to. `be32` is the four-byte big-endian
form of a length.
-/
namespace RubyEngine

abbrev Bytes := List UInt8

instance Bytes.lawfulBEq : LawfulBEq Bytes := inferInstance

/-- The UTF-8 encoding of a sequence of characters. -/
def encodeChars (cs : List Char) : Bytes := cs.flatMap String.utf8EncodeChar

def utf8 (s : String) : Bytes := encodeChars s.toList

@[simp] theorem encodeChars_nil : encodeChars [] = [] := rfl

@[simp] theorem encodeChars_cons (c : Char) (cs : List Char) :
    encodeChars (c :: cs) = String.utf8EncodeChar c ++ encodeChars cs := rfl

@[simp] theorem encodeChars_append (cs ds : List Char) :
    encodeChars (cs ++ ds) = encodeChars cs ++ encodeChars ds := List.flatMap_append

@[simp] theorem utf8_ofList (cs : List Char) : utf8 (String.ofList cs) = encodeChars cs := by
  simp [utf8]

theorem utf8_append (s t : String) : utf8 (s ++ t) = utf8 s ++ utf8 t := by
  simp [utf8]

/-! ## Decoding one character -/

/-- The scalar value that a lead byte and its continuation bytes spell, with the
number of bytes, before the check that the spelling is the shortest one. -/
def spelled : Bytes → Option (Nat × Nat)
  | a :: t =>
      if a.toNat < 0x80 then some (a.toNat, 1)
      else if a.toNat < 0xe0 then
        match t with
        | b :: _ => some (a.toNat % 32 * 64 + b.toNat % 64, 2)
        | _ => none
      else if a.toNat < 0xf0 then
        match t with
        | b :: c :: _ => some (a.toNat % 16 * 4096 + b.toNat % 64 * 64 + c.toNat % 64, 3)
        | _ => none
      else
        match t with
        | b :: c :: d :: _ =>
            some (a.toNat % 8 * 262144 + b.toNat % 64 * 4096 + c.toNat % 64 * 64 + d.toNat % 64, 4)
        | _ => none
  | [] => none

def decodeChar (bytes : Bytes) : Option (Char × Bytes) :=
  match spelled bytes with
  | none => none
  | some (n, k) =>
      if String.utf8EncodeChar (Char.ofNat n) = bytes.take k then
        some (Char.ofNat n, bytes.drop k)
      else none

/-- Only an encoded character decodes. -/
theorem decodeChar_sound {bytes : Bytes} {c : Char} {rest : Bytes}
    (h : decodeChar bytes = some (c, rest)) : bytes = String.utf8EncodeChar c ++ rest := by
  unfold decodeChar at h
  split at h
  · cases h
  · next n k _ =>
    split at h
    · next htake =>
      obtain ⟨rfl, rfl⟩ := Prod.mk.inj (Option.some.inj h)
      rw [htake, List.take_append_drop]
    · cases h

private theorem toNat_ofNat_byte {n : Nat} (h : n < 256) : (UInt8.ofNat n).toNat = n := by
  rw [UInt8.toNat_ofNat']
  exact Nat.mod_eq_of_lt h

private theorem spelled_encode (c : Char) (rest : Bytes) :
    spelled (String.utf8EncodeChar c ++ rest) =
      some (c.toNat, (String.utf8EncodeChar c).length) := by
  have hmax : c.toNat < 0x110000 := by
    rcases c.valid with h | ⟨_, h⟩
    · exact h.trans (by decide)
    · exact h
  have hv : c.val.toNat = c.toNat := rfl
  simp only [String.utf8EncodeChar, hv]
  split
  · next h1 =>
    simp only [List.cons_append, List.nil_append, spelled, toNat_ofNat_byte (by omega : c.toNat < 256)]
    rw [if_pos (by omega)]
    rfl
  · split
    · next h2 =>
      simp only [List.cons_append, List.nil_append, spelled,
        toNat_ofNat_byte (by omega : c.toNat / 64 % 32 + 192 < 256),
        toNat_ofNat_byte (by omega : c.toNat % 64 + 128 < 256)]
      rw [if_neg (by omega), if_pos (by omega)]
      simp only [List.length_cons, List.length_nil, Option.some.injEq, Prod.mk.injEq, and_true]
      omega
    · split
      · next h3 =>
        simp only [List.cons_append, List.nil_append, spelled,
          toNat_ofNat_byte (by omega : c.toNat / 4096 % 16 + 224 < 256),
          toNat_ofNat_byte (by omega : c.toNat / 64 % 64 + 128 < 256),
          toNat_ofNat_byte (by omega : c.toNat % 64 + 128 < 256)]
        rw [if_neg (by omega), if_neg (by omega), if_pos (by omega)]
        simp only [List.length_cons, List.length_nil, Option.some.injEq, Prod.mk.injEq, and_true]
        omega
      · simp only [List.cons_append, List.nil_append, spelled,
          toNat_ofNat_byte (by omega : c.toNat / 262144 % 8 + 240 < 256),
          toNat_ofNat_byte (by omega : c.toNat / 4096 % 64 + 128 < 256),
          toNat_ofNat_byte (by omega : c.toNat / 64 % 64 + 128 < 256),
          toNat_ofNat_byte (by omega : c.toNat % 64 + 128 < 256)]
        rw [if_neg (by omega), if_neg (by omega), if_neg (by omega)]
        simp only [List.length_cons, List.length_nil, Option.some.injEq, Prod.mk.injEq, and_true]
        omega

/-- Every encoded character decodes, whatever follows it. -/
theorem decodeChar_encode (c : Char) (rest : Bytes) :
    decodeChar (String.utf8EncodeChar c ++ rest) = some (c, rest) := by
  simp only [decodeChar, spelled_encode, Char.ofNat_toNat, List.take_left, List.drop_left,
    ↓reduceIte]

theorem encodeChar_append_inj {c d : Char} {s t : Bytes}
    (h : String.utf8EncodeChar c ++ s = String.utf8EncodeChar d ++ t) : c = d ∧ s = t := by
  have hc := decodeChar_encode c s
  rw [h, decodeChar_encode] at hc
  obtain ⟨rfl, rfl⟩ := Prod.mk.inj (Option.some.inj hc)
  exact ⟨rfl, rfl⟩

theorem encodeChars_injective : Function.Injective encodeChars := by
  intro cs
  induction cs with
  | nil =>
    intro ds h
    cases ds with
    | nil => rfl
    | cons d ds =>
      have hne := @String.utf8EncodeChar_ne_nil d
      simp [hne] at h
  | cons c cs ih =>
    intro ds h
    cases ds with
    | nil =>
      have hne := @String.utf8EncodeChar_ne_nil c
      simp [hne] at h
    | cons d ds =>
      obtain ⟨rfl, hrest⟩ := encodeChar_append_inj h
      rw [ih hrest]

theorem utf8_injective : Function.Injective utf8 := by
  intro s t h
  exact String.toList_inj.mp (encodeChars_injective h)

@[simp] theorem utf8_inj {s t : String} : utf8 s = utf8 t ↔ s = t := utf8_injective.eq_iff

/-- A byte string that is the encoding of a text. -/
def ValidUtf8 (bytes : Bytes) : Prop := ∃ s : String, utf8 s = bytes

theorem ValidUtf8.append {a b : Bytes} (ha : ValidUtf8 a) (hb : ValidUtf8 b) :
    ValidUtf8 (a ++ b) := by
  obtain ⟨s, rfl⟩ := ha
  obtain ⟨t, rfl⟩ := hb
  exact ⟨s ++ t, utf8_append s t⟩

theorem ValidUtf8.cons {b : UInt8} {rest : Bytes} (hb : b.toNat < 128) (h : ValidUtf8 rest) :
    ValidUtf8 (b :: rest) := by
  have hbyte : String.utf8EncodeChar (Char.ofNat b.toNat) = [b] := by
    have hall : ∀ n < 128, String.utf8EncodeChar (Char.ofNat n) = [UInt8.ofNat n] := by decide
    rw [hall b.toNat hb, UInt8.ofNat_toNat]
  obtain ⟨s, rfl⟩ := h
  refine ⟨String.ofList (Char.ofNat b.toNat :: s.toList), ?_⟩
  rw [utf8_ofList, encodeChars_cons, hbyte, List.singleton_append, utf8]

theorem validUtf8_ascii {bytes : Bytes} (h : ∀ b ∈ bytes, b.toNat < 128) : ValidUtf8 bytes := by
  induction bytes with
  | nil => exact ⟨"", rfl⟩
  | cons b rest ih => exact .cons (h b (by simp)) (ih (fun x hx => h x (List.mem_cons_of_mem _ hx)))

theorem encode_ascii {c : Char} (h : c.toNat < 128) :
    String.utf8EncodeChar c = [UInt8.ofNat c.toNat] := by
  have hv : c.val.toNat = c.toNat := rfl
  simp only [String.utf8EncodeChar, hv]
  rw [if_pos (by omega)]

theorem encode_high {c : Char} (h : ¬ c.toNat < 128) :
    ∀ b ∈ String.utf8EncodeChar c, 128 ≤ b.toNat := by
  have hmax : c.toNat < 0x110000 := by
    rcases c.valid with hv | ⟨_, hv⟩
    · exact hv.trans (by decide)
    · exact hv
  have hv : c.val.toNat = c.toNat := rfl
  simp only [String.utf8EncodeChar, hv]
  rw [if_neg (by omega)]
  intro b hb
  split at hb
  · simp only [List.mem_cons, List.not_mem_nil, or_false] at hb
    rcases hb with rfl | rfl <;> rw [UInt8.toNat_ofNat'] <;> omega
  · split at hb
    · simp only [List.mem_cons, List.not_mem_nil, or_false] at hb
      rcases hb with rfl | rfl | rfl <;> rw [UInt8.toNat_ofNat'] <;> omega
    · simp only [List.mem_cons, List.not_mem_nil, or_false] at hb
      rcases hb with rfl | rfl | rfl | rfl <;> rw [UInt8.toNat_ofNat'] <;> omega

theorem length_encode_high {c : Char} (h : ¬ c.toNat < 0x80) :
    (String.utf8EncodeChar c).length =
      if c.toNat < 0x800 then 2 else if c.toNat < 0x10000 then 3 else 4 := by
  have hv : c.val.toNat = c.toNat := rfl
  simp only [String.utf8EncodeChar, hv]
  rw [if_neg (by omega)]
  by_cases h2 : c.toNat < 0x800
  · rw [if_pos (show c.toNat ≤ 0x7ff by omega), if_pos h2]
    rfl
  · rw [if_neg (show ¬ c.toNat ≤ 0x7ff by omega), if_neg h2]
    by_cases h3 : c.toNat < 0x10000
    · rw [if_pos (show c.toNat ≤ 0xffff by omega), if_pos h3]
      rfl
    · rw [if_neg (show ¬ c.toNat ≤ 0xffff by omega), if_neg h3]
      rfl

theorem validUtf8_encodeChars (cs : List Char) : ValidUtf8 (encodeChars cs) :=
  ⟨String.ofList cs, utf8_ofList cs⟩

theorem encodeChars_split {a b : Bytes} {q : UInt8} (hq : q.toNat < 128) {cs : List Char}
    (h : encodeChars cs = a ++ q :: b) : ValidUtf8 a ∧ ValidUtf8 b := by
  induction cs generalizing a with
  | nil => simp at h
  | cons c cs ih =>
    rw [encodeChars_cons] at h
    rcases List.append_eq_append_iff.mp h with ⟨more, rfl, hrest⟩ | ⟨more, hchar, hrest⟩
    · obtain ⟨hmore, hb⟩ := ih hrest
      have hfirst := validUtf8_encodeChars [c]
      rw [encodeChars_cons, encodeChars_nil, List.append_nil] at hfirst
      exact ⟨hfirst.append hmore, hb⟩
    · cases more with
      | nil =>
        rw [List.append_nil] at hchar
        obtain ⟨-, hb⟩ := ih (a := []) hrest.symm
        have hfirst := validUtf8_encodeChars [c]
        rw [encodeChars_cons, encodeChars_nil, List.append_nil, hchar] at hfirst
        exact ⟨hfirst, hb⟩
      | cons x more =>
        -- the byte lies in the encoding of one character, and so it is all of it
        obtain ⟨rfl, rfl⟩ := List.cons.inj hrest
        by_cases hc : c.toNat < 128
        · rw [encode_ascii hc] at hchar
          have hlength := congrArg List.length hchar
          simp only [List.length_append, List.length_cons, List.length_nil] at hlength
          have ha : a = [] := List.length_eq_zero_iff.mp (by omega)
          have hm : more = [] := List.length_eq_zero_iff.mp (by omega)
          subst ha hm
          exact ⟨⟨"", rfl⟩, validUtf8_encodeChars cs⟩
        · have hhigh := encode_high hc q (by rw [hchar]; simp)
          omega

/-- What lies on either side of an ASCII byte is a text of its own. -/
theorem ValidUtf8.split {a b : Bytes} {q : UInt8} (hq : q.toNat < 128)
    (h : ValidUtf8 (a ++ q :: b)) : ValidUtf8 a ∧ ValidUtf8 b := by
  obtain ⟨s, hs⟩ := h
  exact encodeChars_split hq hs

/-- So many characters at most. -/
def decodeChars : Nat → Bytes → Option (List Char)
  | _, [] => some []
  | 0, _ :: _ => none
  | n + 1, b :: bytes =>
      match decodeChar (b :: bytes) with
      | none => none
      | some (c, rest) => (decodeChars n rest).map (fun cs => c :: cs)

/-- The text of a byte string, if it is the encoding of one. -/
def decodeUtf8 (bytes : Bytes) : Option String :=
  (decodeChars bytes.length bytes).map String.ofList

theorem decodeChars_sound {n : Nat} {bytes : Bytes} {cs : List Char}
    (h : decodeChars n bytes = some cs) : encodeChars cs = bytes := by
  induction n generalizing bytes cs with
  | zero =>
    cases bytes with
    | nil => obtain rfl := Option.some.inj h; rfl
    | cons b bytes => cases h
  | succ n ih =>
    cases bytes with
    | nil => obtain rfl := Option.some.inj h; rfl
    | cons b bytes =>
      rw [decodeChars] at h
      split at h
      · cases h
      · next c rest hc =>
        obtain ⟨tail, htail, rfl⟩ := Option.map_eq_some_iff.mp h
        rw [encodeChars_cons, ih htail, decodeChar_sound hc]

theorem decodeChars_encode {n : Nat} (cs : List Char) (h : (encodeChars cs).length ≤ n) :
    decodeChars n (encodeChars cs) = some cs := by
  induction cs generalizing n with
  | nil => cases n <;> rfl
  | cons c cs ih =>
    obtain ⟨b, more, henc⟩ := List.exists_cons_of_ne_nil (@String.utf8EncodeChar_ne_nil c)
    rw [encodeChars_cons, List.length_append, henc, List.length_cons] at h
    cases n with
    | zero => omega
    | succ n =>
      have hc := decodeChar_encode c (encodeChars cs)
      rw [henc, List.cons_append] at hc
      rw [encodeChars_cons, henc, List.cons_append, decodeChars, hc]
      simp only [ih (show (encodeChars cs).length ≤ n by omega), Option.map_some]

theorem decodeUtf8_eq_some {bytes : Bytes} {s : String} :
    decodeUtf8 bytes = some s ↔ utf8 s = bytes := by
  constructor
  · intro h
    obtain ⟨cs, hcs, rfl⟩ := Option.map_eq_some_iff.mp h
    rw [utf8_ofList]
    exact decodeChars_sound hcs
  · rintro rfl
    rw [decodeUtf8, utf8, decodeChars_encode _ (Nat.le_refl _), Option.map_some,
      String.ofList_toList]

/-! ## Lossy decoding -/

def isContinuation (b : UInt8) : Bool := 0x80 ≤ b && b < 0xc0

/-- The second byte of a character of three or four bytes. -/
def isSecond (a b : UInt8) : Bool :=
  if a = 0xe0 then 0xa0 ≤ b && b < 0xc0
  else if a = 0xed then 0x80 ≤ b && b < 0xa0
  else if a = 0xf0 then 0x90 ≤ b && b < 0xc0
  else if a = 0xf4 then 0x80 ≤ b && b < 0x90
  else 0xe1 ≤ a && a < 0xf4 && isContinuation b

/-- The number of bytes that one replacement character stands for, where no character is
encoded: the start of one as far as it goes. -/
def brokenLength : Bytes → Nat
  | a :: b :: rest =>
      if !isSecond a b then 1
      else if a < 0xf0 then 2
      else if rest.head?.any isContinuation then 3
      else 2
  | _ => 1

def lossyChars : Nat → Bytes → List Char
  | n + 1, b :: rest =>
      match decodeChar (b :: rest) with
      | some (c, rest) => c :: lossyChars n rest
      | none => '\ufffd' :: lossyChars n ((b :: rest).drop (brokenLength (b :: rest)))
  | _, _ => []

/-- `String::from_utf8_lossy` -/
def lossy (bytes : Bytes) : String := String.ofList (lossyChars bytes.length bytes)

theorem brokenLength_pos (bytes : Bytes) : 1 ≤ brokenLength bytes := by
  unfold brokenLength
  split
  · split
    · exact Nat.le_refl 1
    · split
      · decide
      · split <;> decide
  · exact Nat.le_refl 1

/-- A replacement character is three bytes, in the place of at least one. -/
theorem length_lossyChars_le (n : Nat) (bytes : Bytes) :
    (encodeChars (lossyChars n bytes)).length ≤ 3 * bytes.length := by
  induction n generalizing bytes with
  | zero => exact Nat.zero_le _
  | succ n ih =>
    cases bytes with
    | nil => exact Nat.zero_le _
    | cons b rest =>
      rw [lossyChars]
      cases hchar : decodeChar (b :: rest) with
      | some decoded =>
        obtain ⟨c, tail⟩ := decoded
        have hlength := congrArg List.length (decodeChar_sound hchar)
        rw [List.length_append] at hlength
        have htail := ih tail
        show (encodeChars (c :: lossyChars n tail)).length ≤ _
        rw [encodeChars_cons, List.length_append]
        omega
      | none =>
        have hpos := brokenLength_pos (b :: rest)
        have htail := ih ((b :: rest).drop (brokenLength (b :: rest)))
        rw [List.length_drop, List.length_cons] at htail
        have hchar : (String.utf8EncodeChar '\ufffd').length = 3 := by decide
        show (encodeChars ('\ufffd' :: lossyChars n _)).length ≤ _
        rw [encodeChars_cons, List.length_append, hchar, List.length_cons]
        omega

theorem length_lossy_le (bytes : Bytes) : (utf8 (lossy bytes)).length ≤ 3 * bytes.length := by
  rw [lossy, utf8_ofList]
  exact length_lossyChars_le _ _

theorem lossyChars_encode {n : Nat} (cs : List Char) (h : (encodeChars cs).length ≤ n) :
    lossyChars n (encodeChars cs) = cs := by
  induction cs generalizing n with
  | nil => cases n <;> rfl
  | cons c cs ih =>
    obtain ⟨b, more, henc⟩ := List.exists_cons_of_ne_nil (@String.utf8EncodeChar_ne_nil c)
    rw [encodeChars_cons, List.length_append, henc, List.length_cons] at h
    cases n with
    | zero => omega
    | succ n =>
      have hchar := decodeChar_encode c (encodeChars cs)
      rw [encodeChars_cons, henc, List.cons_append, lossyChars, ← List.cons_append, ← henc]
      simp only [hchar]
      rw [ih (by omega)]

/-- Nothing is lost of a text. -/
theorem lossy_utf8 (s : String) : lossy (utf8 s) = s := by
  rw [lossy, utf8, lossyChars_encode _ (Nat.le_refl _), String.ofList_toList]

/-! ## Big-endian lengths -/

def be32 (n : Nat) : Bytes :=
  [UInt8.ofNat (n / 0x1000000), UInt8.ofNat (n / 0x10000), UInt8.ofNat (n / 0x100), UInt8.ofNat n]

/-- The length that the first four bytes of a list announce. -/
def fromBe32 : Bytes → Nat
  | a :: b :: c :: d :: _ =>
      a.toNat * 0x1000000 + b.toNat * 0x10000 + c.toNat * 0x100 + d.toNat
  | _ => 0

@[simp] theorem length_be32 (n : Nat) : (be32 n).length = 4 := rfl

theorem fromBe32_be32 {n : Nat} (h : n < 2 ^ 32) (rest : Bytes) : fromBe32 (be32 n ++ rest) = n := by
  simp only [be32, List.cons_append, List.nil_append, fromBe32, UInt8.toNat_ofNat']
  omega

/-- Only the first four bytes matter. -/
theorem fromBe32_append {bytes : Bytes} (h : 4 ≤ bytes.length) (rest : Bytes) :
    fromBe32 (bytes ++ rest) = fromBe32 bytes := by
  match bytes, h with
  | a :: b :: c :: d :: t, _ => rfl

theorem fromBe32_take {bytes : Bytes} : fromBe32 (bytes.take 4) = fromBe32 bytes := by
  match bytes with
  | [] => rfl
  | [_] => rfl
  | [_, _] => rfl
  | [_, _, _] => rfl
  | _ :: _ :: _ :: _ :: _ => rfl

end RubyEngine
