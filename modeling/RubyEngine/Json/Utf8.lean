import RubyEngine.Json.Parser

/-!
# JSON texts are UTF-8

A reader that takes its input as a string can be given any text, and so whatever a
lawful style prints.
-/
namespace RubyEngine.Json

theorem hexDigit_ascii {b : UInt8} {n : Nat} (h : hexDigit b = some n) : b.toNat < 128 := by
  unfold hexDigit at h
  simp only [UInt8.le_iff_toNat_le] at h
  split at h
  · next hb => exact hb.2.trans_lt (by decide)
  split at h
  · next hb => exact hb.2.trans_lt (by decide)
  split at h
  · next hb => exact hb.2.trans_lt (by decide)
  · cases h

theorem hex4_ascii {a b c d : UInt8} {n : Nat} (h : hex4 a b c d = some n) :
    ∀ x ∈ [a, b, c, d], x.toNat < 128 := by
  simp only [hex4, Option.bind_eq_bind, Option.pure_def, Option.bind_eq_some_iff] at h
  obtain ⟨_, ha, _, hb, _, hc, _, hd, _⟩ := h
  simp [hexDigit_ascii ha, hexDigit_ascii hb, hexDigit_ascii hc, hexDigit_ascii hd]

theorem shortEscape_ascii {b : UInt8} {c : Char} (h : shortEscape b = some c) :
    b.toNat < 128 := by
  by_contra hhigh
  have hne : ∀ x : UInt8, x.toNat < 128 → b ≠ x := by
    intro x hx heq
    exact hhigh (heq ▸ hx)
  have hquote := hne Ascii.quote (by decide)
  have hslash := hne Ascii.backslash (by decide)
  simp [shortEscape, hquote, hslash, hne] at h

theorem Spells.validUtf8 {bytes : Bytes} {c : Char} (h : Spells bytes c) : ValidUtf8 bytes := by
  cases h with
  | plain _ _ _ _ =>
    exact ⟨String.ofList [c], by rw [utf8_ofList, encodeChars_cons, encodeChars_nil, List.append_nil]⟩
  | short b _ hb =>
    exact .cons (by decide) (validUtf8_ascii (by simpa using shortEscape_ascii hb))
  | unit a b d e _ hunit =>
    exact .cons (by decide) (.cons (by decide) (validUtf8_ascii (hex4_ascii hunit)))
  | pair a b d e a' b' d' e' high low _ hhigh hlow =>
    have hfirst : ValidUtf8 [Ascii.backslash, Ascii.letterU, a, b, d, e] :=
      .cons (by decide) (.cons (by decide) (validUtf8_ascii (hex4_ascii hhigh)))
    have hsecond : ValidUtf8 [Ascii.backslash, Ascii.letterU, a', b', d', e'] :=
      .cons (by decide) (.cons (by decide) (validUtf8_ascii (hex4_ascii hlow)))
    exact hfirst.append hsecond

theorem validUtf8_decimal (i : Int) : ValidUtf8 (decimal i) := by
  have hdigits : ∀ b ∈ digits i.natAbs, b.toNat < 128 := by
    intro b hb
    have hdigit := isDigit_of_mem_digits hb
    simp only [isDigit, Bool.and_eq_true, decide_eq_true_eq, UInt8.le_iff_toNat_le] at hdigit
    exact hdigit.2.trans_lt (by decide)
  unfold decimal
  split
  · exact .cons (by decide) (validUtf8_ascii hdigits)
  · exact validUtf8_ascii hdigits

theorem Blank.validUtf8 {blank : Bytes} (h : Blank blank) : ValidUtf8 blank := by
  refine validUtf8_ascii fun b hb => ?_
  have hblank := h b hb
  simp only [isBlank, Bool.or_eq_true, decide_eq_true_eq] at hblank
  rcases hblank with ((rfl | rfl) | rfl) | rfl <;> decide

theorem Chars.validUtf8 {bytes : Bytes} {cs : List Char} (h : Chars bytes cs) :
    ValidUtf8 bytes := by
  induction h with
  | nil => exact ⟨"", rfl⟩
  | cons hspells _ ih => exact hspells.validUtf8.append ih

theorem ValidUtf8.enclosed {a b : UInt8} {bytes : Bytes} (ha : a.toNat < 128) (hb : b.toNat < 128)
    (h : ValidUtf8 bytes) : ValidUtf8 (a :: bytes ++ [b]) := by
  have hlast : ValidUtf8 [b] := validUtf8_ascii (by simpa using hb)
  exact (ValidUtf8.cons ha h).append hlast

theorem Chars.validUtf8_quoted {bytes : Bytes} {cs : List Char} (h : Chars bytes cs) :
    ValidUtf8 (Ascii.quote :: bytes ++ [Ascii.quote]) :=
  ValidUtf8.enclosed (by decide) (by decide) h.validUtf8

theorem Element.validUtf8 {bytes : Bytes} {d : Doc} (h : Element bytes d) : ValidUtf8 bytes := by
  refine @Element.rec (fun bytes _ _ => ValidUtf8 bytes) (fun bytes _ _ => ValidUtf8 bytes)
    (fun bytes _ _ => ValidUtf8 bytes)
    ?null ?false ?true ?int ?string ?emptyArray ?array ?emptyObject ?object ?item ?items ?member
    ?members bytes d h
  case null => exact validUtf8_ascii (show ∀ b ∈ Ascii.null, b.toNat < 128 by decide +kernel)
  case false => exact validUtf8_ascii (show ∀ b ∈ Ascii.false, b.toNat < 128 by decide +kernel)
  case true => exact validUtf8_ascii (show ∀ b ∈ Ascii.true, b.toNat < 128 by decide +kernel)
  case int => exact fun i => validUtf8_decimal i.val
  case string => exact fun hcs => hcs.validUtf8_quoted
  case emptyArray | emptyObject =>
    exact fun hblank => ValidUtf8.enclosed (by decide) (by decide) hblank.validUtf8
  case array | object =>
    exact fun _ ih => ValidUtf8.enclosed (by decide) (by decide) ih
  case item =>
    intro before text after d hbefore _ hafter ih
    exact (hbefore.validUtf8.append ih).append hafter.validUtf8
  case items =>
    intro before text after rest d items hbefore _ hafter _ ih ihrest
    exact ((hbefore.validUtf8.append ih).append hafter.validUtf8).append (.cons (by decide) ihrest)
  case member =>
    intro blank key before colon text after cs d hblank hkey hbefore hcolon _ hafter ih
    exact ((((hblank.validUtf8.append hkey.validUtf8_quoted).append hbefore.validUtf8).append
      (.cons (by decide) hcolon.validUtf8)).append ih).append hafter.validUtf8
  case members =>
    intro blank key before colon text after rest cs d entries hblank hkey hbefore hcolon _ hafter _
      ih ihrest
    exact (((((hblank.validUtf8.append hkey.validUtf8_quoted).append hbefore.validUtf8).append
      (.cons (by decide) hcolon.validUtf8)).append ih).append hafter.validUtf8).append
        (.cons (by decide) ihrest)

theorem Text.validUtf8 {bytes : Bytes} {d : Doc} (h : Text bytes d) : ValidUtf8 bytes := by
  obtain ⟨before, text, after, hbefore, helement, hafter, rfl⟩ := h
  exact (hbefore.validUtf8.append helement.validUtf8).append hafter.validUtf8

/-- What a lawful style prints is the encoding of a text. -/
theorem validUtf8_render {style : Style} (hs : style.Lawful) {d : Doc}
    (h : d.floatFree = true) : ValidUtf8 (style.render d) := (hs.element h).validUtf8

end RubyEngine.Json
