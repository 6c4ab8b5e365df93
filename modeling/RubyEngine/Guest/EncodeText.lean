import RubyEngine.Guest.EncodeCorrect

/-!
# Encodings that a reader accepts

The encoder copies the bytes of strings and keys as they are, whether they are text or
not. An encoding that is UTF-8 as a whole is made of strings that are.
-/
namespace RubyEngine.Guest

open Json

variable {heap : Heap} {limit : Nat}

/-! ## One string -/

theorem byteEscape_ascii {c : UInt8} (hc : c.toNat < 128) :
    ∃ first more, byteEscape c = first :: more ∧ ∀ b ∈ first :: more, b.toNat < 128 := by
  unfold byteEscape
  split
  · refine ⟨Ascii.backslash, [c], rfl, ?_⟩
    simp only [List.forall_mem_cons]
    exact ⟨by decide, hc, by simp⟩
  · split
    · exact ⟨_, _, rfl, unitEscape_ascii c.toNat⟩
    · exact ⟨c, [], rfl, by simpa using hc⟩

theorem validUtf8_of_ascii_append {ascii rest : Bytes} (hascii : ∀ b ∈ ascii, b.toNat < 128)
    (h : ValidUtf8 (ascii ++ rest)) : ValidUtf8 rest := by
  induction ascii with
  | nil => exact h
  | cons b ascii ih =>
    have hrest := (ValidUtf8.split (a := []) (hascii b (by simp)) h).2
    exact ih (fun x hx => hascii x (List.mem_cons_of_mem _ hx)) hrest

/-- The escapes hide nothing: behind `run`, a run of bytes that stand for themselves. -/
theorem validUtf8_of_escaped (text run : Bytes) (h : ValidUtf8 (run ++ text.flatMap byteEscape)) :
    ValidUtf8 (run ++ text) := by
  induction text generalizing run with
  | nil => exact h
  | cons c text ih =>
    rw [List.flatMap_cons] at h
    by_cases hc : c.toNat < 128
    · obtain ⟨first, more, hescape, hascii⟩ := byteEscape_ascii hc
      rw [hescape, List.cons_append] at h
      obtain ⟨hrun, hrest⟩ := ValidUtf8.split (hascii first (by simp)) h
      have htail := validUtf8_of_ascii_append
        (fun b hb => hascii b (List.mem_cons_of_mem _ hb)) hrest
      exact hrun.append (.cons hc (ih [] htail))
    · have hself : byteEscape c = [c] := by
        have hone := @flatMap_byteEscape_high [c] (by simpa using Nat.not_lt.mp hc)
        rwa [List.flatMap_singleton] at hone
      rw [hself, ← List.append_assoc] at h
      have hlonger := ih (run ++ [c]) h
      rwa [List.append_assoc, List.singleton_append] at hlonger

/-- The text stands somewhere in the output, escaped and between quotes. -/
def Quoted (text output : Bytes) : Prop :=
  ∃ before after, output =
    before ++ Ascii.quote :: (text.flatMap byteEscape ++ Ascii.quote :: after)

theorem Quoted.validUtf8 {text output : Bytes} (h : Quoted text output) (hout : ValidUtf8 output) :
    ValidUtf8 text := by
  obtain ⟨before, after, rfl⟩ := h
  have hbehind := (ValidUtf8.split (by decide) hout).2
  have hescaped := (ValidUtf8.split (by decide) hbehind).1
  exact validUtf8_of_escaped text [] hescaped

theorem Quoted.between {text output : Bytes} (h : Quoted text output) (front back : Bytes) :
    Quoted text (front ++ output ++ back) := by
  obtain ⟨before, after, rfl⟩ := h
  exact ⟨front ++ before, after ++ back, by simp⟩

/-! ## What the encoder adds -/

theorem append_added {output bytes out : Bytes} (h : append limit output bytes = .ok out) :
    out = output ++ bytes := by
  unfold append at h
  split at h
  · cases h
  · exact (Except.ok.inj h).symm

theorem quoteBytes_added {text output out : Bytes} (h : quoteBytes limit output text = .ok out) :
    out = output ++ text.flatMap byteEscape := by
  induction text generalizing output with
  | nil =>
    obtain rfl := Except.ok.inj h
    exact (List.append_nil _).symm
  | cons c text ih =>
    obtain ⟨next, hnext, hrest⟩ := bind_eq_ok h
    rw [ih hrest, append_added hnext, List.append_assoc, List.flatMap_cons]

theorem quote_added {text output out : Bytes} (h : quote limit output text = .ok out) :
    out = output ++ Ascii.quote :: (text.flatMap byteEscape ++ [Ascii.quote]) := by
  obtain ⟨opened, hopen, h⟩ := bind_eq_ok h
  obtain ⟨written, hwritten, hclose⟩ := bind_eq_ok h
  rw [append_added hclose, quoteBytes_added hwritten, append_added hopen]
  simp

theorem comma_added {first : Bool} {output out : Bytes} (h : comma limit first output = .ok out) :
    ∃ more, out = output ++ more := by
  unfold comma at h
  split at h
  · obtain rfl := Except.ok.inj h
    exact ⟨[], (List.append_nil _).symm⟩
  · exact ⟨_, append_added h⟩

/-- The strings and keys under a value stand in the output. -/
structure Holds (heap : Heap) (v : MrbValue) (output : Bytes) : Prop where
  texts : ∀ n w bytes, Occurs heap v n w → shape heap w = .text bytes → Quoted bytes output
  keys : ∀ n w entries, Occurs heap v n w → shape heap w = .hash entries →
    ∀ e ∈ entries, ∀ bytes, e.1.text = some bytes → Quoted bytes output

theorem Holds.between {v : MrbValue} {output : Bytes} (h : Holds heap v output)
    (front back : Bytes) : Holds heap v (front ++ output ++ back) where
  texts n w bytes hocc hshape := (h.texts n w bytes hocc hshape).between front back
  keys n w entries hocc hshape e he bytes hkey :=
    (h.keys n w entries hocc hshape e he bytes hkey).between front back

theorem Holds.textual {v : MrbValue} {output : Bytes} (h : Holds heap v output)
    (hout : ValidUtf8 output) : Textual heap v where
  texts n w bytes hocc hshape := (h.texts n w bytes hocc hshape).validUtf8 hout
  keys n w entries hocc hshape e he bytes hkey :=
    (h.keys n w entries hocc hshape e he bytes hkey).validUtf8 hout

/-- A step that writes a value adds an output with all of its strings. -/
def Adds (heap : Heap) (write : Bytes → MrbValue → Except Exception Bytes) : Prop :=
  ∀ output v out, write output v = .ok out → ∃ more, out = output ++ more ∧ Holds heap v more

variable {write : Bytes → MrbValue → Except Exception Bytes}

theorem encodeItems_adds (hwrite : Adds heap write) {items : List MrbValue} {first : Bool}
    {output out : Bytes} (h : encodeItems limit write first output items = .ok out) :
    ∃ more, out = output ++ more ∧ ∀ v ∈ items, Holds heap v more := by
  induction items generalizing first output with
  | nil =>
    obtain rfl := Except.ok.inj h
    exact ⟨[], (List.append_nil _).symm, by simp⟩
  | cons v rest ih =>
    obtain ⟨before, hcomma, h⟩ := bind_eq_ok h
    obtain ⟨after, hv, h⟩ := bind_eq_ok h
    obtain ⟨comma, rfl⟩ := comma_added hcomma
    obtain ⟨value, rfl, hholds⟩ := hwrite _ _ _ hv
    obtain ⟨more, rfl, hrest⟩ := ih h
    refine ⟨comma ++ value ++ more, by simp, ?_⟩
    intro x hx
    rcases List.mem_cons.mp hx with rfl | hx
    · exact hholds.between comma more
    · have hbehind := (hrest x hx).between (comma ++ value) []
      rwa [List.append_nil] at hbehind

theorem encodeEntries_adds (hwrite : Adds heap write) {entries : Entries} {first : Bool}
    {seen : List Bytes} {output out : Bytes}
    (h : encodeEntries limit write first seen output entries = .ok out) :
    ∃ more, out = output ++ more ∧ ∀ e ∈ entries, Holds heap e.2 more ∧
      ∀ bytes, e.1.text = some bytes → Quoted bytes more := by
  induction entries generalizing first seen output with
  | nil =>
    obtain rfl := Except.ok.inj h
    exact ⟨[], (List.append_nil _).symm, by simp⟩
  | cons e rest ih =>
    obtain ⟨raw, v⟩ := e
    cases hkey : raw.text with
    | none =>
      rw [encodeEntries_foreign hkey] at h
      cases h
    | some key =>
      by_cases hin : key ∈ seen
      · rw [encodeEntries_seen hkey hin] at h
        cases h
      · rw [encodeEntries_fresh hkey hin] at h
        obtain ⟨_, hcomma, h⟩ := bind_eq_ok h
        obtain ⟨_, hquote, h⟩ := bind_eq_ok h
        obtain ⟨_, hcolon, h⟩ := bind_eq_ok h
        obtain ⟨_, hv, h⟩ := bind_eq_ok h
        obtain ⟨comma, rfl⟩ := comma_added hcomma
        obtain rfl := quote_added hquote
        obtain rfl := append_added hcolon
        obtain ⟨value, rfl, hholds⟩ := hwrite _ _ _ hv
        obtain ⟨more, rfl, hrest⟩ := ih h
        let quoted := Ascii.quote :: (key.flatMap byteEscape ++ [Ascii.quote])
        refine ⟨comma ++ quoted ++ [Ascii.colon] ++ value ++ more, by simp [quoted], ?_⟩
        intro x hx
        rcases List.mem_cons.mp hx with rfl | hx
        · refine ⟨hholds.between (comma ++ quoted ++ [Ascii.colon]) more, ?_⟩
          intro bytes hbytes
          obtain rfl := Option.some.inj (hkey.symm.trans hbytes)
          exact ⟨comma, [Ascii.colon] ++ value ++ more, by simp [quoted]⟩
        · obtain ⟨hvalue, hname⟩ := hrest x hx
          have hbehind := hvalue.between (comma ++ quoted ++ [Ascii.colon] ++ value) []
          rw [List.append_nil] at hbehind
          refine ⟨hbehind, fun bytes hbytes => ?_⟩
          have hquoted := (hname bytes hbytes).between (comma ++ quoted ++ [Ascii.colon] ++ value) []
          rwa [List.append_nil] at hquoted

/-- A value holds its own text and keys and what the values under it hold. -/
theorem Holds.of_children {v : MrbValue} {output : Bytes}
    (htext : ∀ bytes, shape heap v = .text bytes → Quoted bytes output)
    (hkeys : ∀ entries, shape heap v = .hash entries →
      ∀ e ∈ entries, ∀ bytes, e.1.text = some bytes → Quoted bytes output)
    (hchildren : ∀ x, Child heap v x → Holds heap x output) : Holds heap v output := by
  constructor
  · intro n w bytes hocc hshape
    cases hocc with
    | root => exact htext bytes hshape
    | deeper hchild hrest => exact (hchildren _ hchild).texts _ w bytes hrest hshape
  · intro n w entries hocc hshape
    cases hocc with
    | root => exact hkeys entries hshape
    | deeper hchild hrest => exact (hchildren _ hchild).keys _ w entries hrest hshape

theorem Holds.of_leaf {v : MrbValue} {output : Bytes} (harray : ∀ items, shape heap v ≠ .array items)
    (hhash : ∀ entries, shape heap v ≠ .hash entries)
    (htext : ∀ bytes, shape heap v = .text bytes → Quoted bytes output) : Holds heap v output := by
  refine .of_children htext (fun entries hshape => absurd hshape (hhash entries)) ?_
  intro x hchild
  cases hchild with
  | item hshape _ => exact absurd hshape (harray _)
  | member hshape _ => exact absurd hshape (hhash _)

theorem encodeRoom_adds (room : Nat) : Adds heap (encodeRoom heap limit room) := by
  induction room with
  | zero =>
    intro output v out h
    cases h
  | succ room ih =>
    intro output v out h
    rw [encodeRoom_shape] at h
    cases hshape : shape heap v with
    | badRecord | other =>
      rw [hshape] at h
      cases h
    | nil | bool | integer =>
      simp only [hshape] at h
      exact ⟨_, append_added h, .of_leaf (by simp [hshape]) (by simp [hshape]) (by simp [hshape])⟩
    | text bytes =>
      simp only [hshape] at h
      refine ⟨_, quote_added h, .of_leaf (by simp [hshape]) (by simp [hshape]) ?_⟩
      intro other hother
      obtain rfl := Shape.text.inj (hshape.symm.trans hother)
      exact ⟨[], [], by simp⟩
    | array items =>
      simp only [hshape] at h
      obtain ⟨_, hopen, h⟩ := bind_eq_ok h
      obtain ⟨_, hitems, hclose⟩ := bind_eq_ok h
      obtain rfl := append_added hopen
      obtain ⟨more, rfl, hholds⟩ := encodeItems_adds ih hitems
      obtain rfl := append_added hclose
      refine ⟨[Ascii.openBracket] ++ more ++ [Ascii.closeBracket], by simp, ?_⟩
      refine .of_children (by simp [hshape]) (by simp [hshape]) ?_
      intro x hchild
      cases hchild with
      | item hitems' hx =>
        obtain rfl := Shape.array.inj (hshape.symm.trans hitems')
        exact (hholds x hx).between _ _
      | member hentries _ =>
        rw [hshape] at hentries
        cases hentries
    | hash entries =>
      simp only [hshape] at h
      obtain ⟨_, hopen, h⟩ := bind_eq_ok h
      obtain ⟨_, hentries, hclose⟩ := bind_eq_ok h
      obtain rfl := append_added hopen
      obtain ⟨more, rfl, hholds⟩ := encodeEntries_adds ih hentries
      obtain rfl := append_added hclose
      refine ⟨[Ascii.openBrace] ++ more ++ [Ascii.closeBrace], by simp, ?_⟩
      refine .of_children (by simp [hshape]) ?_ ?_
      · intro others hothers e he bytes hkey
        obtain rfl := Shape.hash.inj (hshape.symm.trans hothers)
        exact ((hholds e he).2 bytes hkey).between _ _
      · intro x hchild
        cases hchild with
        | item hitems _ =>
          rw [hshape] at hitems
          cases hitems
        | member hentries' he =>
          obtain rfl := Shape.hash.inj (hshape.symm.trans hentries')
          exact (hholds _ he).1.between _ _

/-- An encoding that is UTF-8 is the text of a document. -/
theorem encode_of_validUtf8 {v : MrbValue} {out : Bytes} (h : encode heap limit [] v 0 = .ok out)
    (hout : ValidUtf8 out) :
    ∃ d, Unfolds heap d v ∧ d.height ≤ 64 ∧ out = style.render d ∧ out.length ≤ limit := by
  obtain ⟨more, heq, hholds⟩ := encodeRoom_adds _ [] v out h
  rw [List.nil_append] at heq
  exact encode_ok (heq ▸ hholds |>.textual hout) h

end RubyEngine.Guest
