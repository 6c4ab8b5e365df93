import RubyEngine.Json.Render

/-!
# Reading JSON text

A parser for the grammar of `Text`, with fuel that the length of the text is
enough for. It finds every document that the grammar gives a text, so a text has
one document only.
-/
namespace RubyEngine.Json

/-! ## The parser -/

def skip : Bytes → Bytes
  | [] => []
  | b :: rest => if isBlank b then skip rest else b :: rest

/-- What follows the byte `b`. -/
def expect (b : UInt8) : Bytes → Option Bytes
  | a :: rest => if a = b then some rest else none
  | [] => none

def parseUnit : Bytes → Option (Nat × Bytes)
  | a :: b :: d :: e :: rest => (hex4 a b d e).map (fun n => (n, rest))
  | _ => none

/-- The character of an escape, behind its backslash. -/
def parseEscape : Bytes → Option (Char × Bytes)
  | [] => none
  | b :: rest =>
      if b = Ascii.letterU then
        match parseUnit rest with
        | none => none
        | some (high, rest) =>
            if high < 0xd800 ∨ 0xe000 ≤ high then some (Char.ofNat high, rest)
            else
              match ((expect Ascii.backslash rest).bind (expect Ascii.letterU)).bind parseUnit with
              | none => none
              | some (low, rest) =>
                  if high < 0xdc00 ∧ 0xdc00 ≤ low ∧ low < 0xe000 then
                    some (Char.ofNat (0x10000 + (high - 0xd800) * 0x400 + (low - 0xdc00)), rest)
                  else none
      else (shortEscape b).map (fun c => (c, rest))

def parseChar (bytes : Bytes) : Option (Char × Bytes) :=
  match expect Ascii.backslash bytes with
  | some rest => parseEscape rest
  | none =>
      match decodeChar bytes with
      | some (c, rest) => if 0x20 ≤ c.toNat ∧ c ≠ '"' ∧ c ≠ '\\' then some (c, rest) else none
      | none => none

/-- The characters up to the closing quote. -/
def parseChars : Nat → Bytes → Option (List Char × Bytes)
  | 0, _ => none
  | n + 1, bytes =>
      match expect Ascii.quote bytes with
      | some rest => some ([], rest)
      | none =>
          match parseChar bytes with
          | none => none
          | some (c, rest) => (parseChars n rest).map (fun out => (c :: out.1, out.2))

def isDigit (b : UInt8) : Bool := 0x30 ≤ b && b ≤ 0x39

/-- The bytes that would go on with a number. -/
def isNumeric (b : UInt8) : Bool := isDigit b || b = 0x2e || b = 0x45 || b = 0x65

/-- A natural number in the shortest form, and nothing numeric behind it. -/
def parseNat (bytes : Bytes) : Option (Nat × Bytes) :=
  let ds := bytes.takeWhile isDigit
  let rest := bytes.dropWhile isDigit
  let n := Nat.ofDigitChars 10 (ds.map (fun b => Char.ofNat b.toNat)) 0
  if digits n = ds ∧ rest.head?.all (fun b => !isNumeric b) then some (n, rest) else none

def integer (i : Int) : Option Integer :=
  if h : -2 ^ 63 ≤ i ∧ i < 2 ^ 64 then some ⟨i, h⟩ else none

def parseNumber (bytes : Bytes) : Option (Doc × Bytes) :=
  match expect Ascii.minus bytes with
  | some bytes =>
      match parseNat bytes with
      | none => none
      | some (n, rest) =>
          if n = 0 then none else (integer (-n)).map (fun i => (.number (.int i), rest))
  | none =>
      match parseNat bytes with
      | none => none
      | some (n, rest) => (integer n).map (fun i => (.number (.int i), rest))

/-- The text of a string, behind its opening quote. -/
def parseString (bytes : Bytes) : Option (String × Bytes) :=
  (parseChars (bytes.length + 1) bytes).map (fun out => (String.ofList out.1, out.2))

/-- The key of a member and the colon, up to the value. -/
def parseKey (bytes : Bytes) : Option (String × Bytes) :=
  match (expect Ascii.quote (skip bytes)).bind parseString with
  | none => none
  | some (key, rest) => (expect Ascii.colon (skip rest)).map (fun rest => (key, skip rest))

mutual
def parseElement : Nat → Bytes → Option (Doc × Bytes)
  | 0, _ => none
  | _ + 1, [] => none
  | n + 1, b :: rest =>
      if Ascii.null.isPrefixOf (b :: rest) then some (.null, rest.drop 3)
      else if Ascii.false.isPrefixOf (b :: rest) then some (.bool false, rest.drop 4)
      else if Ascii.true.isPrefixOf (b :: rest) then some (.bool true, rest.drop 3)
      else if b = Ascii.quote then (parseString rest).map (fun out => (.string out.1, out.2))
      else if b = Ascii.openBracket then
        match expect Ascii.closeBracket (skip rest) with
        | some rest => some (.array [], rest)
        | none => (parseItems n rest).map (fun out => (.array out.1, out.2))
      else if b = Ascii.openBrace then
        match expect Ascii.closeBrace (skip rest) with
        | some rest => some (.object [], rest)
        | none => (parseMembers n rest).map (fun out => (.object out.1, out.2))
      else parseNumber (b :: rest)
def parseItems : Nat → Bytes → Option (List Doc × Bytes)
  | 0, _ => none
  | n + 1, bytes =>
      match parseElement n (skip bytes) with
      | none => none
      | some (d, rest) =>
          match expect Ascii.comma (skip rest) with
          | some rest => (parseItems n rest).map (fun out => (d :: out.1, out.2))
          | none => (expect Ascii.closeBracket (skip rest)).map (fun rest => ([d], rest))
def parseMembers : Nat → Bytes → Option (List (String × Doc) × Bytes)
  | 0, _ => none
  | n + 1, bytes =>
      match parseKey bytes with
      | none => none
      | some (key, rest) =>
          match parseElement n rest with
          | none => none
          | some (d, rest) =>
              match expect Ascii.comma (skip rest) with
              | some rest => (parseMembers n rest).map (fun out => ((key, d) :: out.1, out.2))
              | none => (expect Ascii.closeBrace (skip rest)).map (fun rest => ([(key, d)], rest))
end

def parse (bytes : Bytes) : Option Doc :=
  match parseElement bytes.length (skip bytes) with
  | some (d, rest) => if skip rest = [] then some d else none
  | none => none

/-! ## Completeness -/

/-- The text stops here for a number. -/
def Stops (rest : Bytes) : Prop := rest.head?.all (fun b => !isNumeric b) = true

@[simp] theorem expect_self (b : UInt8) (rest : Bytes) : expect b (b :: rest) = some rest := by
  simp [expect]

theorem expect_of_ne {a b : UInt8} (h : a ≠ b) (rest : Bytes) : expect b (a :: rest) = none := by
  simp [expect, h]

theorem skip_blank {blank : Bytes} (h : Blank blank) (rest : Bytes) :
    skip (blank ++ rest) = skip rest := by
  induction blank with
  | nil => rfl
  | cons b blank ih =>
    have hb := h b (by simp)
    rw [List.cons_append, skip, if_pos hb]
    exact ih (fun x hx => h x (List.mem_cons_of_mem _ hx))

theorem skip_of_not_blank {b : UInt8} (h : isBlank b = false) (rest : Bytes) :
    skip (b :: rest) = b :: rest := by
  simp [skip, h]

/-- White space and the byte that follows it stop a number. -/
theorem stops_blank {blank : Bytes} (h : Blank blank) {b : UInt8} (hb : isNumeric b = false)
    (rest : Bytes) : Stops (blank ++ b :: rest) := by
  cases blank with
  | nil => simp [Stops, hb]
  | cons c blank =>
    have hc := h c (by simp)
    simp only [isBlank, Bool.or_eq_true, decide_eq_true_eq] at hc
    rcases hc with ((rfl | rfl) | rfl) | rfl <;> simp [Stops] <;> decide

/-- The byte of an ASCII character starts no other one. -/
theorem encodes_ascii {c d : Char} {b : UInt8} {rest : Bytes}
    (hd : String.utf8EncodeChar d = [b]) (hc : String.utf8EncodeChar c = b :: rest) : c = d := by
  have heq : String.utf8EncodeChar c ++ [] = String.utf8EncodeChar d ++ rest := by
    rw [hc, hd, List.append_nil, List.singleton_append]
  exact (encodeChar_append_inj heq).1

theorem spells_head {bytes : Bytes} {c : Char} (h : Spells bytes c) :
    ∃ b rest, bytes = b :: rest ∧ b ≠ Ascii.quote := by
  cases h with
  | plain _ _ hq _ =>
    obtain ⟨b, rest, henc⟩ := List.exists_cons_of_ne_nil (@String.utf8EncodeChar_ne_nil c)
    refine ⟨b, rest, henc, ?_⟩
    rintro rfl
    exact hq (encodes_ascii (by decide : String.utf8EncodeChar '"' = [Ascii.quote]) henc)
  | short b _ _ => exact ⟨_, _, rfl, by decide⟩
  | unit => exact ⟨_, _, rfl, by decide⟩
  | pair => exact ⟨_, _, rfl, by decide⟩

theorem parseChar_spells {bytes : Bytes} {c : Char} (h : Spells bytes c) (rest : Bytes) :
    parseChar (bytes ++ rest) = some (c, rest) := by
  cases h with
  | plain _ hlow hq hb =>
    obtain ⟨a, tail, henc⟩ := List.exists_cons_of_ne_nil (@String.utf8EncodeChar_ne_nil c)
    have hne : a ≠ Ascii.backslash := by
      rintro rfl
      exact hb (encodes_ascii (by decide : String.utf8EncodeChar '\\' = [Ascii.backslash]) henc)
    have hexp : expect Ascii.backslash (String.utf8EncodeChar c ++ rest) = none := by
      rw [henc, List.cons_append, expect_of_ne hne]
    rw [parseChar, hexp, decodeChar_encode]
    simp [hlow, hq, hb]
  | short b _ hshort =>
    have hne : b ≠ Ascii.letterU := by
      rintro rfl
      cases hshort
    simp [parseChar, parseEscape, hne, hshort]
  | unit a b d e _ hhex =>
    have hscalar : c.toNat < 0xd800 ∨ 0xe000 ≤ c.toNat := by
      rcases c.valid with h | h
      · exact Or.inl h
      · exact Or.inr h.1
    simp [parseChar, parseEscape, parseUnit, hhex, hscalar]
  | pair a b d e a' b' d' e' high low _ hhigh hlow h1 h2 h3 h4 hc =>
    have hsur : ¬ (high < 0xd800 ∨ 0xe000 ≤ high) := by omega
    have hok : high < 0xdc00 ∧ 0xdc00 ≤ low ∧ low < 0xe000 := ⟨h2, h3, h4⟩
    simp [parseChar, parseEscape, parseUnit, hhigh, hlow, hsur, hok, ← hc]

theorem parseChars_chars {bytes : Bytes} {cs : List Char} (h : Chars bytes cs) (rest : Bytes) :
    ∀ n, bytes.length < n → parseChars n (bytes ++ Ascii.quote :: rest) = some (cs, rest) := by
  induction h with
  | nil =>
    intro n hn
    cases n with
    | zero => simp at hn
    | succ n => simp [parseChars]
  | @cons bytes tail c cs hspell _ ih =>
    intro n hn
    obtain ⟨b, more, rfl, hne⟩ := spells_head hspell
    cases n with
    | zero => simp at hn
    | succ n =>
      have hlen : tail.length < n := by
        rw [List.length_append, List.length_cons] at hn
        omega
      have hc := parseChar_spells hspell (tail ++ Ascii.quote :: rest)
      have hexp : expect Ascii.quote (b :: more ++ (tail ++ Ascii.quote :: rest)) = none :=
        expect_of_ne hne _
      rw [List.append_assoc, parseChars, hexp]
      simp only [hc, ih n hlen, Option.map_some]

/-! ## Numbers -/

theorem char_of_digit {c : Char} (h : c.isDigit = true) :
    isDigit (UInt8.ofNat c.toNat) = true ∧ Char.ofNat (UInt8.ofNat c.toNat).toNat = c := by
  have hb : 48 ≤ c.toNat ∧ c.toNat ≤ 57 := by
    simp only [Char.isDigit, ge_iff_le, Bool.and_eq_true, decide_eq_true_eq,
      UInt32.le_iff_toNat_le] at h
    exact h
  have hn : (UInt8.ofNat c.toNat).toNat = c.toNat := by
    rw [UInt8.toNat_ofNat', Nat.mod_eq_of_lt (by omega)]
  refine ⟨?_, by rw [hn, Char.ofNat_toNat]⟩
  simp only [isDigit, Bool.and_eq_true, decide_eq_true_eq, UInt8.le_iff_toNat_le, hn]
  exact hb

theorem isDigit_of_mem_digits {n : Nat} {b : UInt8} (h : b ∈ digits n) : isDigit b = true := by
  obtain ⟨c, hc, rfl⟩ := List.mem_map.mp h
  exact (char_of_digit (Nat.isDigit_of_mem_toDigits (by decide) (by decide) hc)).1

theorem digits_ne_nil (n : Nat) : digits n ≠ [] := by
  simp [digits, Nat.toDigits_ne_nil]

theorem ofDigitChars_digits (n : Nat) :
    Nat.ofDigitChars 10 ((digits n).map (fun b => Char.ofNat b.toNat)) 0 = n := by
  have hback : (digits n).map (fun b => Char.ofNat b.toNat) = Nat.toDigits 10 n := by
    rw [digits, List.map_map]
    conv_rhs => rw [← List.map_id (Nat.toDigits 10 n)]
    refine List.map_congr_left ?_
    intro c hc
    exact (char_of_digit (Nat.isDigit_of_mem_toDigits (by decide) (by decide) hc)).2
  rw [hback, Nat.ofDigitChars_ten_toDigits]

theorem parseNat_digits (n : Nat) {rest : Bytes} (h : Stops rest) :
    parseNat (digits n ++ rest) = some (n, rest) := by
  have hall : ∀ b ∈ digits n, isDigit b = true := fun b hb => isDigit_of_mem_digits hb
  have hnone : rest.takeWhile isDigit = [] ∧ rest.dropWhile isDigit = rest := by
    cases rest with
    | nil => exact ⟨rfl, rfl⟩
    | cons b rest =>
      have hb : isDigit b = false := by
        simp only [Stops, List.head?_cons, Option.all_some, Bool.not_eq_true', isNumeric,
          Bool.or_eq_false_iff] at h
        exact h.1.1.1
      simp [hb]
  have htake : (digits n ++ rest).takeWhile isDigit = digits n := by
    rw [List.takeWhile_append_of_pos hall, hnone.1, List.append_nil]
  have hdrop : (digits n ++ rest).dropWhile isDigit = rest := by
    rw [List.dropWhile_append_of_pos hall, hnone.2]
  simp only [parseNat, htake, hdrop, ofDigitChars_digits]
  exact if_pos ⟨trivial, h⟩

theorem integer_val (i : Integer) : integer i.val = some i := dif_pos i.property

/-- The first byte of a number. -/
theorem decimal_head (i : Int) :
    ∃ b rest, decimal i = b :: rest ∧ (b = Ascii.minus ∨ isDigit b = true) := by
  unfold decimal
  split
  · exact ⟨_, _, rfl, Or.inl rfl⟩
  · obtain ⟨b, rest, heq⟩ := List.exists_cons_of_ne_nil (digits_ne_nil i.natAbs)
    exact ⟨b, rest, heq, Or.inr (isDigit_of_mem_digits (by rw [heq]; simp))⟩

theorem parseNumber_decimal (i : Integer) {rest : Bytes} (h : Stops rest) :
    parseNumber (decimal i.val ++ rest) = some (.number (.int i), rest) := by
  unfold decimal
  split
  · next hneg =>
    have habs : -(i.val.natAbs : Int) = i.val := by omega
    have hne : i.val.natAbs ≠ 0 := by omega
    rw [parseNumber, List.cons_append, expect_self]
    simp only [parseNat_digits _ h, if_neg hne]
    rw [habs, integer_val, Option.map_some]
  · next hpos =>
    obtain ⟨b, more, heq⟩ := List.exists_cons_of_ne_nil (digits_ne_nil i.val.natAbs)
    have hb : isDigit b = true := isDigit_of_mem_digits (n := i.val.natAbs) (by rw [heq]; simp)
    have hexp : expect Ascii.minus (digits i.val.natAbs ++ rest) = none := by
      rw [heq, List.cons_append, expect_of_ne]
      rintro rfl
      revert hb
      decide
    have habs : (i.val.natAbs : Int) = i.val := by omega
    rw [parseNumber, hexp]
    simp only [parseNat_digits _ h]
    rw [habs, integer_val, Option.map_some]

/-! ## Values -/

theorem element_head {text : Bytes} {d : Doc} (h : Element text d) :
    ∃ b rest, text = b :: rest ∧ isBlank b = false ∧ b ≠ Ascii.closeBracket := by
  cases h with
  | null | false | true => exact ⟨_, _, rfl, by decide, by decide⟩
  | int i =>
    obtain ⟨b, rest, heq, hb⟩ := decimal_head i.val
    refine ⟨b, rest, heq, ?_⟩
    rcases hb with rfl | hb
    · decide
    · constructor
      · by_contra hblank
        simp only [isBlank, Bool.not_eq_false, Bool.or_eq_true, decide_eq_true_eq] at hblank
        rcases hblank with ((rfl | rfl) | rfl) | rfl <;> revert hb <;> decide
      · rintro rfl
        revert hb
        decide
  | string | emptyArray | array | emptyObject | object => exact ⟨_, _, rfl, by decide, by decide⟩

/-- White space in front of an element is skipped, and nothing of the element. -/
theorem skip_element {blank text : Bytes} {d : Doc} (hblank : Blank blank) (h : Element text d)
    (rest : Bytes) : skip (blank ++ (text ++ rest)) = text ++ rest := by
  obtain ⟨b, more, rfl, hb, _⟩ := element_head h
  rw [skip_blank hblank, List.cons_append, skip_of_not_blank hb]

theorem skip_to {blank : Bytes} (h : Blank blank) {b : UInt8} (hb : isBlank b = false)
    (rest : Bytes) : skip (blank ++ b :: rest) = b :: rest := by
  rw [skip_blank h, skip_of_not_blank hb]

theorem parseElement_number {b : UInt8} (h : b = Ascii.minus ∨ isDigit b = true) (n : Nat)
    (rest : Bytes) : parseElement (n + 1) (b :: rest) = parseNumber (b :: rest) := by
  have hne : ∀ x, isDigit x = false → x ≠ Ascii.minus → b ≠ x := by
    rintro x hx hm rfl
    rcases h with h | h
    · exact hm h
    · rw [hx] at h; cases h
  have h1 := hne 0x6e (by decide) (by decide)
  have h2 := hne 0x66 (by decide) (by decide)
  have h3 := hne 0x74 (by decide) (by decide)
  have h4 := hne Ascii.quote (by decide) (by decide)
  have h5 := hne Ascii.openBracket (by decide) (by decide)
  have h6 := hne Ascii.openBrace (by decide) (by decide)
  simp [parseElement, Ascii.null, Ascii.false, Ascii.true, h1.symm, h2.symm, h3.symm, h4, h5, h6]

theorem parseElement_quote (n : Nat) (rest : Bytes) :
    parseElement (n + 1) (Ascii.quote :: rest) =
      (parseString rest).map (fun out => (.string out.1, out.2)) := rfl

theorem parseElement_openBracket (n : Nat) (rest : Bytes) :
    parseElement (n + 1) (Ascii.openBracket :: rest) =
      match expect Ascii.closeBracket (skip rest) with
      | some rest => some (.array [], rest)
      | none => (parseItems n rest).map (fun out => (.array out.1, out.2)) := rfl

theorem parseElement_openBrace (n : Nat) (rest : Bytes) :
    parseElement (n + 1) (Ascii.openBrace :: rest) =
      match expect Ascii.closeBrace (skip rest) with
      | some rest => some (.object [], rest)
      | none => (parseMembers n rest).map (fun out => (.object out.1, out.2)) := rfl

/-- The first byte behind the white space of a list of items. -/
theorem items_head {body : Bytes} {items : List Doc} (h : Items body items) (rest : Bytes) :
    expect Ascii.closeBracket (skip (body ++ rest)) = none := by
  have hskip : ∀ {blank text : Bytes} {d : Doc} (tail : Bytes), Blank blank → Element text d →
      expect Ascii.closeBracket (skip (blank ++ (text ++ tail))) = none := by
    intro blank text d tail hblank helem
    obtain ⟨b, more, heq, _, hb⟩ := element_head helem
    rw [skip_element hblank helem, heq, List.cons_append, expect_of_ne hb]
  cases h with
  | one hblank helem _ => simpa only [List.append_assoc] using hskip _ hblank helem
  | cons hblank helem _ _ => simpa only [List.append_assoc] using hskip _ hblank helem

theorem members_head {body : Bytes} {entries : List (String × Doc)} (h : Members body entries)
    (rest : Bytes) : expect Ascii.closeBrace (skip (body ++ rest)) = none := by
  cases h with
  | one hblank | cons hblank =>
    simp only [List.append_assoc, List.cons_append,
      skip_to hblank (by decide : isBlank Ascii.quote = false)]
    exact expect_of_ne (by decide : Ascii.quote ≠ Ascii.closeBrace) _

theorem parseString_chars {body : Bytes} {cs : List Char} (h : Chars body cs) (rest : Bytes) :
    parseString (body ++ Ascii.quote :: rest) = some (String.ofList cs, rest) := by
  have hc := parseChars_chars h rest ((body ++ Ascii.quote :: rest).length + 1) (by
    rw [List.length_append]; omega)
  rw [parseString, hc, Option.map_some]

/-- The three parsers at one amount of fuel. -/
structure Complete (n : Nat) : Prop where
  element : ∀ text d rest, Element text d → text.length ≤ n → Stops rest →
    parseElement n (text ++ rest) = some (d, rest)
  items : ∀ body items rest, Items body items → body.length < n →
    parseItems n (body ++ Ascii.closeBracket :: rest) = some (items, rest)
  members : ∀ body entries rest, Members body entries → body.length < n →
    parseMembers n (body ++ Ascii.closeBrace :: rest) = some (entries, rest)

theorem parseElement_complete {n : Nat} (ih : Complete n) {text rest : Bytes} {d : Doc}
    (h : Element text d) (hlen : text.length ≤ n + 1) (hstop : Stops rest) :
    parseElement (n + 1) (text ++ rest) = some (d, rest) := by
  cases h with
  | null | false | true => simp [parseElement, Ascii.null, Ascii.false, Ascii.true]
  | int i =>
    obtain ⟨b, more, heq, hb⟩ := decimal_head i.val
    rw [heq, List.cons_append, parseElement_number hb, ← List.cons_append, ← heq,
      parseNumber_decimal i hstop]
  | string hchars =>
    simp only [List.cons_append, List.append_assoc, List.nil_append, parseElement_quote,
      parseString_chars hchars, Option.map_some]
  | emptyArray hblank =>
    simp only [List.cons_append, List.append_assoc, List.nil_append, parseElement_openBracket,
      skip_to hblank (by decide : isBlank Ascii.closeBracket = false), expect_self]
  | array hitems =>
    have hi := ih.items _ _ rest hitems (by simp at hlen; omega)
    simp only [List.cons_append, List.append_assoc, List.nil_append, parseElement_openBracket,
      items_head hitems, hi, Option.map_some]
  | emptyObject hblank =>
    simp only [List.cons_append, List.append_assoc, List.nil_append, parseElement_openBrace,
      skip_to hblank (by decide : isBlank Ascii.closeBrace = false), expect_self]
  | object hmembers =>
    have hm := ih.members _ _ rest hmembers (by simp at hlen; omega)
    simp only [List.cons_append, List.append_assoc, List.nil_append, parseElement_openBrace,
      members_head hmembers, hm, Option.map_some]

theorem parseItems_complete {n : Nat} (ih : Complete n) {body rest : Bytes} {items : List Doc}
    (h : Items body items) (hlen : body.length < n + 1) :
    parseItems (n + 1) (body ++ Ascii.closeBracket :: rest) = some (items, rest) := by
  cases h with
  | @one before text after d hbefore helem hafter =>
    have he := ih.element text d (after ++ Ascii.closeBracket :: rest) helem
      (by simp at hlen; omega) (stops_blank hafter (by decide) rest)
    have hne : expect Ascii.comma (Ascii.closeBracket :: rest) = none := expect_of_ne (by decide) _
    simp only [parseItems, List.append_assoc, skip_element hbefore helem, he,
      skip_to hafter (by decide : isBlank Ascii.closeBracket = false), hne, expect_self,
      Option.map_some]
  | @cons before text after more d items hbefore helem hafter hitems =>
    have he := ih.element text d (after ++ Ascii.comma :: (more ++ Ascii.closeBracket :: rest)) helem
      (by simp at hlen; omega) (stops_blank hafter (by decide) _)
    have hi := ih.items more items rest hitems (by simp at hlen; omega)
    simp only [parseItems, List.append_assoc, List.cons_append, skip_element hbefore helem, he,
      skip_to hafter (by decide : isBlank Ascii.comma = false), expect_self, hi, Option.map_some]

theorem parseKey_chars {blank key before colon text : Bytes} {cs : List Char} {d : Doc}
    (hblank : Blank blank) (hkey : Chars key cs) (hbefore : Blank before) (hcolon : Blank colon)
    (helem : Element text d) (rest : Bytes) :
    parseKey (blank ++ Ascii.quote :: (key ++ Ascii.quote :: (before ++ Ascii.colon ::
      (colon ++ (text ++ rest))))) = some (String.ofList cs, text ++ rest) := by
  simp only [parseKey, skip_to hblank (by decide : isBlank Ascii.quote = false), expect_self,
    Option.bind_some, parseString_chars hkey,
    skip_to hbefore (by decide : isBlank Ascii.colon = false), Option.map_some,
    skip_element hcolon helem]

theorem parseMembers_complete {n : Nat} (ih : Complete n) {body rest : Bytes}
    {entries : List (String × Doc)} (h : Members body entries) (hlen : body.length < n + 1) :
    parseMembers (n + 1) (body ++ Ascii.closeBrace :: rest) = some (entries, rest) := by
  cases h with
  | @one blank key before colon text after cs d hblank hkey hbefore hcolon helem hafter =>
    have he := ih.element text d (after ++ Ascii.closeBrace :: rest) helem
      (by simp at hlen; omega) (stops_blank hafter (by decide) rest)
    have hne : expect Ascii.comma (Ascii.closeBrace :: rest) = none := expect_of_ne (by decide) _
    simp only [parseMembers, List.append_assoc, List.cons_append, List.nil_append,
      parseKey_chars hblank hkey hbefore hcolon helem, he,
      skip_to hafter (by decide : isBlank Ascii.closeBrace = false), hne, expect_self,
      Option.map_some]
  | @cons blank key before colon text after more cs d entries hblank hkey hbefore hcolon helem
      hafter hmembers =>
    have he := ih.element text d (after ++ Ascii.comma :: (more ++ Ascii.closeBrace :: rest)) helem
      (by simp at hlen; omega) (stops_blank hafter (by decide) _)
    have hm := ih.members more entries rest hmembers (by simp at hlen; omega)
    simp only [parseMembers, List.append_assoc, List.cons_append, List.nil_append,
      parseKey_chars hblank hkey hbefore hcolon helem, he,
      skip_to hafter (by decide : isBlank Ascii.comma = false), expect_self, hm, Option.map_some]

/-- Fuel for the length of the text is enough. -/
theorem complete (n : Nat) : Complete n := by
  induction n with
  | zero =>
    refine ⟨?_, by simp, by simp⟩
    intro text d rest h hlen
    obtain ⟨b, more, rfl, _⟩ := element_head h
    simp at hlen
  | succ n ih =>
    exact ⟨fun _ _ _ h => parseElement_complete ih h, fun _ _ _ h => parseItems_complete ih h,
      fun _ _ _ h => parseMembers_complete ih h⟩

/-- The parser reads every JSON text. -/
theorem parse_text {bytes : Bytes} {d : Doc} (h : Text bytes d) : parse bytes = some d := by
  obtain ⟨before, text, after, hbefore, helem, hafter, rfl⟩ := h
  have hstop : Stops after := by
    cases after with
    | nil => rfl
    | cons b after =>
      have hb := @stops_blank [b] (fun x hx => hafter x (by simp_all)) Ascii.comma (by decide) []
      simpa [Stops] using hb
  have he := (complete (before ++ text ++ after).length).element text d after helem
    (by simp; omega) hstop
  have hend : skip after = [] := by
    have hs := skip_blank hafter []
    rwa [List.append_nil] at hs
  rw [parse, List.append_assoc, skip_element hbefore helem, ← List.append_assoc, he]
  exact if_pos hend

/-- A text has one document. -/
theorem text_unique {bytes : Bytes} {d e : Doc} (hd : Text bytes d) (he : Text bytes e) : d = e :=
  Option.some.inj ((parse_text hd).symm.trans (parse_text he))

end RubyEngine.Json
