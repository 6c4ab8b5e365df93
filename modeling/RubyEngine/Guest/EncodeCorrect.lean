import RubyEngine.Json.Parser
import RubyEngine.Guest.Encode
import RubyEngine.Guest.Unfolding

/-!
# What the encoder writes

On a value whose unfolding is a document, the encoder prints this document, as far
as the byte limit lets it. On any other value it raises.
-/
namespace RubyEngine.Guest

open Json

/-! ## Writing under the limit -/

/-- The text at once, or the error. -/
def emit (limit : Nat) (output text : Bytes) : Except Exception Bytes :=
  if output.length + text.length ≤ limit then .ok (output ++ text) else .error .tooLong

/-- A part of the encoder that writes `text` and does nothing else. -/
def Writes (limit : Nat) (write : Bytes → Except Exception Bytes) (text : Bytes) : Prop :=
  ∀ output, output.length ≤ limit → write output = emit limit output text

section

variable {limit : Nat} {write : Bytes → Except Exception Bytes} {text : Bytes}

theorem writes_nothing : Writes limit (fun output => .ok output) [] := by
  intro output h
  simp [emit, h]

theorem writes_append (bytes : Bytes) :
    Writes limit (fun output => append limit output bytes) bytes := by
  intro output h
  simp only [append, emit]
  by_cases hfit : output.length + bytes.length ≤ limit
  · rw [if_neg (by omega), if_pos hfit]
  · rw [if_pos (by omega), if_neg hfit]

theorem Writes.bind {next : Bytes → Except Exception Bytes} {more : Bytes}
    (h : Writes limit write text) (hnext : Writes limit next more) :
    Writes limit (fun output => write output >>= next) (text ++ more) := by
  intro output hle
  show (write output >>= next) = _
  rw [h output hle]
  unfold emit
  by_cases hfit : output.length + text.length ≤ limit
  · rw [if_pos hfit]
    show next (output ++ text) = _
    rw [hnext _ (by rw [List.length_append]; exact hfit), emit, List.length_append,
      List.length_append, List.append_assoc, Nat.add_assoc]
  · have hmore : ¬ output.length + (text ++ more).length ≤ limit := by
      rw [List.length_append]
      omega
    rw [if_neg hfit, if_neg hmore]
    rfl

end

/-! ## Strings -/

/-- The way the encoder spells a character: byte by byte. Floats are left out. -/
def style : Style where
  spell c := (String.utf8EncodeChar c).flatMap byteEscape
  float _ := []

/-- No byte of a longer encoding looks like a quote, a backslash or a control. -/
theorem flatMap_byteEscape_high {bytes : Bytes} (h : ∀ b ∈ bytes, 128 ≤ b.toNat) :
    bytes.flatMap byteEscape = bytes := by
  induction bytes with
  | nil => rfl
  | cons b rest ih =>
    have hb := h b (by simp)
    have hq : b ≠ Ascii.quote := by rintro rfl; exact absurd hb (by decide)
    have hs : b ≠ Ascii.backslash := by rintro rfl; exact absurd hb (by decide)
    have hlow : ¬ b < 32 := by
      rw [UInt8.lt_iff_toNat_lt]
      show ¬ b.toNat < 32
      omega
    rw [List.flatMap_cons, ih (fun x hx => h x (List.mem_cons_of_mem _ hx)), byteEscape,
      if_neg (not_or.mpr ⟨hq, hs⟩), if_neg hlow]
    rfl

theorem spell_ascii : ∀ n < 128, ∀ c : Char, c = Char.ofNat n →
    byteEscape (UInt8.ofNat n) =
      if c = '"' then [Ascii.backslash, Ascii.quote]
      else if c = '\\' then [Ascii.backslash, Ascii.backslash]
      else if n < 32 then unitEscape n
      else [UInt8.ofNat n] := by
  intro n hn c hc
  subst hc
  revert n
  decide

theorem style_lawful : style.Lawful := by
  intro c
  show Spells ((String.utf8EncodeChar c).flatMap byteEscape) c
  by_cases h : c.toNat < 128
  · rw [encode_ascii h, List.flatMap_singleton,
      spell_ascii c.toNat h c (Char.ofNat_toNat c).symm]
    split
    · next hq => exact hq ▸ .short _ _ rfl
    split
    · next hs => exact hs ▸ .short _ _ rfl
    split
    · exact Json.spells_unit (by omega)
    · next hq hs hlow =>
      rw [← encode_ascii h]
      exact .plain c (by omega) hq hs
  · have hhigh := encode_high h
    rw [flatMap_byteEscape_high hhigh]
    refine .plain c (by omega) ?_ ?_
    · rintro rfl
      exact h (by decide)
    · rintro rfl
      exact h (by decide)

theorem flatMap_utf8 (s : String) : (utf8 s).flatMap byteEscape = s.toList.flatMap style.spell := by
  rw [utf8, encodeChars, List.flatMap_assoc]
  rfl

theorem writes_quoteBytes (limit : Nat) (text : Bytes) :
    Writes limit (fun output => quoteBytes limit output text) (text.flatMap byteEscape) := by
  induction text with
  | nil => exact writes_nothing
  | cons c text ih => exact (writes_append (byteEscape c)).bind ih

theorem writes_quote (limit : Nat) (s : String) :
    Writes limit (fun output => quote limit output (utf8 s)) (style.quote s) := by
  have hbody := writes_quoteBytes limit (utf8 s)
  rw [flatMap_utf8] at hbody
  have hall := (writes_append [Ascii.quote]).bind (hbody.bind (writes_append [Ascii.quote]))
  exact hall

theorem writes_comma (limit : Nat) (first : Bool) :
    Writes limit (comma limit first) (Style.separator first) := by
  cases first with
  | false => exact writes_append [Ascii.comma]
  | true => exact writes_nothing

/-! ## Keys -/

section

variable {limit : Nat} {encode : Bytes → MrbValue → Except Exception Bytes} {first : Bool}
  {seen : List Bytes} {output key : Bytes} {raw v : MrbValue} {rest : Entries}

theorem encodeEntries_foreign (h : raw.text = none) :
    encodeEntries limit encode first seen output ((raw, v) :: rest) = .error .foreignKey := by
  show (textKey raw >>= _) = _
  rw [textKey, h]
  rfl

theorem encodeEntries_seen (h : raw.text = some key) (hin : key ∈ seen) :
    encodeEntries limit encode first seen output ((raw, v) :: rest) = .error .repeatedKey := by
  show (textKey raw >>= _) = _
  rw [textKey, h]
  exact if_pos hin

theorem encodeEntries_fresh (h : raw.text = some key) (hnew : key ∉ seen) :
    encodeEntries limit encode first seen output ((raw, v) :: rest) =
      comma limit first output >>= fun output => quote limit output key >>= fun output =>
        append limit output [Ascii.colon] >>= fun output => encode output v >>= fun output =>
          encodeEntries limit encode false (key :: seen) output rest := by
  show (textKey raw >>= _) = _
  rw [textKey, h]
  exact if_neg hnew

end

/-! ## Documents -/

section

variable {heap : Heap} {limit : Nat}

/-- The encoder looks at a value through its shape only. -/
theorem encodeRoom_shape (room : Nat) (output : Bytes) (v : MrbValue) :
    encodeRoom heap limit (room + 1) output v =
      match shape heap v with
      | .nil => append limit output Ascii.null
      | .bool b => append limit output (if b then Ascii.true else Ascii.false)
      | .integer i => append limit output (decimal i.val)
      | .text bytes => quote limit output bytes
      | .array items =>
          append limit output [Ascii.openBracket] >>= fun output =>
            encodeItems limit (encodeRoom heap limit room) true output items >>= fun output =>
              append limit output [Ascii.closeBracket]
      | .hash entries =>
          append limit output [Ascii.openBrace] >>= fun output =>
            encodeEntries limit (encodeRoom heap limit room) true [] output entries >>=
              fun output => append limit output [Ascii.closeBrace]
      | .badRecord => .error .invalidRecord
      | .other => .error .unsupported := by
  show (unwrap heap v >>= encodeValue limit (encodeRoom heap limit room) heap output) = _
  cases v with
  | nil | integer | string | symbol => rfl
  | bool b => cases b <;> rfl
  | object address =>
    simp only [unwrap, shape]
    cases hobject : heap address with
    | array | hash | other =>
      show encodeValue limit (encodeRoom heap limit room) heap output (.object address) = _
      simp only [encodeValue, hobject]
    | record data =>
      cases data with
      | nil | bool | integer | string | symbol => rfl
      | object data =>
        simp only [recordData, dataShape]
        cases hdata : heap data with
        | array | record | other => rfl
        | hash =>
          show encodeValue limit (encodeRoom heap limit room) heap output (.object data) = _
          simp only [encodeValue, hdata]

/-! ## Writing a document -/

theorem writes_items {room : Nat} {ds : List Doc} {items : List MrbValue}
    (h : ∀ d ∈ ds, ∀ v, Unfolds heap d v →
      Writes limit (fun output => encodeRoom heap limit room output v) (style.render d))
    (hds : UnfoldsItems heap ds items) (first : Bool) :
    Writes limit (fun output => encodeItems limit (encodeRoom heap limit room) first output items)
      (style.renderItems first ds) := by
  induction ds generalizing items first with
  | nil =>
    rw [UnfoldsItems] at hds
    subst hds
    exact writes_nothing
  | cons d ds ih =>
    obtain ⟨v, rest, rfl, hd, hrest⟩ := hds
    have htail := ih (fun x hx => h x (List.mem_cons_of_mem _ hx)) hrest false
    have hall := (writes_comma limit first).bind ((h d (by simp) v hd).bind htail)
    rwa [← List.append_assoc] at hall

theorem writes_entries {room : Nat} {ms : List (String × Doc)} {entries : Entries}
    {seen : List Bytes}
    (h : ∀ m ∈ ms, ∀ v, Unfolds heap m.2 v →
      Writes limit (fun output => encodeRoom heap limit room output v) (style.render m.2))
    (hms : UnfoldsEntries heap ms entries) (hnodup : (ms.map Prod.fst).Nodup)
    (hseen : ∀ m ∈ ms, utf8 m.1 ∉ seen) (first : Bool) :
    Writes limit
      (fun output => encodeEntries limit (encodeRoom heap limit room) first seen output entries)
      (style.renderEntries first ms) := by
  induction ms generalizing entries seen first with
  | nil =>
    rw [UnfoldsEntries] at hms
    subst hms
    exact writes_nothing
  | cons m ms ih =>
    obtain ⟨⟨raw, v⟩, rest, rfl, hkey, hd, hrest⟩ := hms
    obtain ⟨k, d⟩ := m
    rw [List.map_cons, List.nodup_cons] at hnodup
    have hfresh : ∀ m ∈ ms, utf8 m.1 ∉ utf8 k :: seen := by
      intro m hm hin
      rcases List.mem_cons.mp hin with heq | hin
      · exact hnodup.1 (List.mem_map.mpr ⟨m, hm, utf8_injective heq⟩)
      · exact hseen m (List.mem_cons_of_mem _ hm) hin
    have htail := ih (fun x hx => h x (List.mem_cons_of_mem _ hx)) hrest hnodup.2 hfresh false
    have hall := (writes_comma limit first).bind ((writes_quote limit k).bind
      ((writes_append [Ascii.colon]).bind ((h (k, d) (by simp) v hd).bind htail)))
    intro output hle
    show encodeEntries limit (encodeRoom heap limit room) first seen output ((raw, v) :: rest) = _
    rw [encodeEntries_fresh hkey (hseen (k, d) (by simp))]
    simpa only [Style.renderEntries, List.append_assoc, List.cons_append, List.nil_append] using
      hall output hle

theorem writes_encode {room : Nat} {d : Doc} {v : MrbValue} (h : Unfolds heap d v)
    (hroom : d.height < room) :
    Writes limit (fun output => encodeRoom heap limit room output v) (style.render d) := by
  induction room generalizing d v with
  | zero => exact absurd hroom (Nat.not_lt_zero _)
  | succ room ih =>
    cases d with
    | null =>
      intro output hle
      simp only [encodeRoom_shape, show shape heap v = .nil from h]
      exact writes_append Ascii.null output hle
    | bool b =>
      intro output hle
      simp only [encodeRoom_shape, show shape heap v = .bool b from h]
      cases b with
      | false => exact writes_append Ascii.false output hle
      | true => exact writes_append Ascii.true output hle
    | number n =>
      obtain ⟨i, hshape, rfl⟩ := h
      intro output hle
      simp only [encodeRoom_shape, hshape]
      exact writes_append (decimal i.val) output hle
    | string s =>
      intro output hle
      simp only [encodeRoom_shape, show shape heap v = .text (utf8 s) from h]
      exact writes_quote limit s output hle
    | array ds =>
      obtain ⟨items, hshape, hds⟩ := h
      rw [Doc.height] at hroom
      have hlow : ∀ d ∈ ds, d.height < room := Doc.heightItems_le.mp (by omega)
      have hitems := writes_items (fun d hd x hx => ih hx (hlow d hd)) hds true
      have hall := (writes_append [Ascii.openBracket]).bind
        (hitems.bind (writes_append [Ascii.closeBracket]))
      intro output hle
      simp only [encodeRoom_shape, hshape]
      exact hall output hle
    | object ms =>
      obtain ⟨entries, hshape, hms, hnodup⟩ := h
      rw [Doc.height] at hroom
      have hlow : ∀ m ∈ ms, m.2.height < room := Doc.heightEntries_le.mp (by omega)
      have hentries := writes_entries (fun m hm x hx => ih hx (hlow m hm)) hms hnodup
        (fun _ _ => List.not_mem_nil) true
      have hall := (writes_append [Ascii.openBrace]).bind
        (hentries.bind (writes_append [Ascii.closeBrace]))
      intro output hle
      simp only [encodeRoom_shape, hshape]
      exact hall output hle

/-! ## Raising -/

theorem bind_eq_ok {x : Except Exception Bytes} {next : Bytes → Except Exception Bytes}
    {out : Bytes} (h : x >>= next = .ok out) : ∃ mid, x = .ok mid ∧ next mid = .ok out := by
  cases x with
  | error e => cases h
  | ok mid => exact ⟨mid, rfl, h⟩

theorem encodeItems_ok {encode : Bytes → MrbValue → Except Exception Bytes}
    {items : List MrbValue} {first : Bool} {output out : Bytes}
    (h : encodeItems limit encode first output items = .ok out) :
    ∀ v ∈ items, ∃ before after, encode before v = .ok after := by
  induction items generalizing first output with
  | nil => simp
  | cons v rest ih =>
    obtain ⟨before, _, h⟩ := bind_eq_ok h
    obtain ⟨after, hv, h⟩ := bind_eq_ok h
    intro x hx
    rcases List.mem_cons.mp hx with rfl | hx
    · exact ⟨before, after, hv⟩
    · exact ih h x hx

/-- A loop that ends has found strings and symbols for keys, no key twice. -/
theorem encodeEntries_ok {encode : Bytes → MrbValue → Except Exception Bytes}
    {entries : Entries} {first : Bool} {seen : List Bytes} {output out : Bytes}
    (h : encodeEntries limit encode first seen output entries = .ok out) :
    (∀ e ∈ entries, ∃ key, e.1.text = some key ∧ key ∉ seen) ∧
      (entries.filterMap (fun e => e.1.text)).Nodup ∧
      ∀ e ∈ entries, ∃ before after, encode before e.2 = .ok after := by
  induction entries generalizing first seen output with
  | nil => simp
  | cons e rest ih =>
    obtain ⟨raw, v⟩ := e
    cases hkey : raw.text with
    | none =>
      rw [encodeEntries_foreign hkey] at h
      cases h
    | some key =>
      by_cases hin : key ∈ seen
      · rw [encodeEntries_seen hkey hin] at h
        cases h
      · rw [encodeEntries_fresh hkey hin] at h
        obtain ⟨_, _, h⟩ := bind_eq_ok h
        obtain ⟨_, _, h⟩ := bind_eq_ok h
        obtain ⟨before, _, h⟩ := bind_eq_ok h
        obtain ⟨after, hv, h⟩ := bind_eq_ok h
        obtain ⟨hkeys, hnodup, hvalues⟩ := ih h
        refine ⟨?_, ?_, ?_⟩
        · intro e he
          rcases List.mem_cons.mp he with rfl | he
          · exact ⟨key, hkey, hin⟩
          · obtain ⟨k, hk, hnew⟩ := hkeys e he
            exact ⟨k, hk, fun hmem => hnew (List.mem_cons_of_mem _ hmem)⟩
        · simp only [List.filterMap_cons, hkey, List.nodup_cons]
          refine ⟨?_, hnodup⟩
          intro hmem
          obtain ⟨e, he, hek⟩ := List.mem_filterMap.mp hmem
          obtain ⟨k, hk, hnew⟩ := hkeys e he
          rw [hk] at hek
          obtain rfl := Option.some.inj hek
          exact hnew List.mem_cons_self
        · intro e he
          rcases List.mem_cons.mp he with rfl | he
          · exact ⟨before, after, hv⟩
          · exact hvalues e he

/-- The encoder ends on values of a bounded depth and without faults only. -/
theorem encodable_of_ok {room : Nat} {v : MrbValue} {output out : Bytes}
    (h : encodeRoom heap limit room output v = .ok out) : Encodable heap room v := by
  induction room generalizing v output out with
  | zero => cases h
  | succ room ih =>
    rw [encodeRoom_shape] at h
    rw [encodable_succ]
    have hleaf : (∀ items, shape heap v ≠ .array items) → (∀ entries, shape heap v ≠ .hash entries) →
        ∀ x, Child heap v x → Encodable heap room x := by
      intro harray hhash x hchild
      cases hchild with
      | item hshape _ => exact absurd hshape (harray _)
      | member hshape _ => exact absurd hshape (hhash _)
    cases hshape : shape heap v with
    | badRecord | other =>
      rw [hshape] at h
      cases h
    | nil | bool | integer | text =>
      refine ⟨?_, hleaf (by simp [hshape]) (by simp [hshape])⟩
      intro hfault
      cases hfault <;> simp_all
    | array items =>
      simp only [hshape] at h
      obtain ⟨_, _, h⟩ := bind_eq_ok h
      obtain ⟨_, hitems, _⟩ := bind_eq_ok h
      refine ⟨?_, ?_⟩
      · intro hfault
        cases hfault <;> simp_all
      · intro x hchild
        cases hchild with
        | item hshape' hx =>
          obtain rfl := Shape.array.inj (hshape.symm.trans hshape')
          obtain ⟨_, _, hv⟩ := encodeItems_ok hitems x hx
          exact ih hv
        | member hshape' _ => simp [hshape] at hshape'
    | hash entries =>
      simp only [hshape] at h
      obtain ⟨_, _, h⟩ := bind_eq_ok h
      obtain ⟨_, hentries, _⟩ := bind_eq_ok h
      obtain ⟨hkeys, hnodup, hvalues⟩ := encodeEntries_ok hentries
      refine ⟨?_, ?_⟩
      · intro hfault
        cases hfault with
        | foreignKey hshape' he hk =>
          obtain rfl := Shape.hash.inj (hshape.symm.trans hshape')
          obtain ⟨_, hk', _⟩ := hkeys _ he
          rw [hk] at hk'
          cases hk'
        | repeatedKey hshape' hrepeated =>
          obtain rfl := Shape.hash.inj (hshape.symm.trans hshape')
          exact hrepeated hnodup
        | badRecord hshape' | other hshape' => simp [hshape] at hshape'
      · intro x hchild
        cases hchild with
        | item hshape' _ => simp [hshape] at hshape'
        | member hshape' he =>
          obtain rfl := Shape.hash.inj (hshape.symm.trans hshape')
          obtain ⟨_, _, hv⟩ := hvalues _ he
          exact ih hv

/-! ## Object graphs -/

theorem encode_eq_emit {v : MrbValue} {d : Doc} (hd : Unfolds heap d v) (hheight : d.height ≤ 64) :
    encode heap limit [] v 0 = emit limit [] (style.render d) :=
  writes_encode hd (Nat.lt_succ_of_le hheight) [] (Nat.zero_le limit)

/-- The encoder returns the document of the value, printed. -/
theorem encode_ok_of_unfolds {v : MrbValue} {d : Doc} {out : Bytes} (hd : Unfolds heap d v)
    (h : encode heap limit [] v 0 = .ok out) :
    d.height ≤ 64 ∧ out = style.render d ∧ out.length ≤ limit := by
  obtain ⟨w, hocc⟩ := (unfolds_occurs hd).mpr (Nat.le_refl d.height)
  have hheight : d.height ≤ 64 := Nat.le_of_lt_succ (encodable_of_ok h _ w hocc).1
  rw [encode_eq_emit hd hheight, emit, List.length_nil, Nat.zero_add, List.nil_append] at h
  split at h
  · next hfit =>
    obtain rfl := Except.ok.inj h
    exact ⟨hheight, rfl, hfit⟩
  · cases h

theorem encode_ok {v : MrbValue} {out : Bytes} (htext : Textual heap v)
    (h : encode heap limit [] v 0 = .ok out) :
    ∃ d, Unfolds heap d v ∧ d.height ≤ 64 ∧ out = style.render d ∧ out.length ≤ limit := by
  obtain ⟨d, hd, _⟩ := exists_unfolding (encodable_of_ok h) htext
  exact ⟨d, hd, encode_ok_of_unfolds hd h⟩

theorem encode_of_unfolds {v : MrbValue} {d : Doc} (hd : Unfolds heap d v) (hheight : d.height ≤ 64)
    (hfit : (style.render d).length ≤ limit) :
    encode heap limit [] v 0 = .ok (style.render d) := by
  rw [encode_eq_emit hd hheight, emit, List.length_nil, Nat.zero_add, if_pos hfit, List.nil_append]

theorem error_of_not_ok {x : Except Exception Bytes} (h : ∀ out, x ≠ .ok out) :
    ∃ e, x = .error e := by
  cases x with
  | error e => exact ⟨e, rfl⟩
  | ok out => exact absurd rfl (h out)

theorem encode_raises_of_deep {v w : MrbValue} {n : Nat} (hocc : Occurs heap v n w)
    (hbad : 64 < n ∨ Fault heap w) : ∃ e, encode heap limit [] v 0 = .error e := by
  refine error_of_not_ok (fun out h => ?_)
  obtain ⟨hlow, hfault⟩ := encodable_of_ok h n w hocc
  rcases hbad with hdeep | hbad
  · omega
  · exact hfault hbad

end

/-- What the encoder returns is short enough and spells the unfolding of the value. It
raises exactly on a value that is too deep, on a fault, and when the text is too long;
hence on every cycle. -/
theorem encode_object_graph (heap : Heap) (limit : Nat) (v : MrbValue) (htext : Textual heap v) :
    (∀ out, encode heap limit [] v 0 = .ok out →
      out.length ≤ limit ∧ ∃ d, Unfolds heap d v ∧ Text out d ∧ parse out = some d) ∧
    ((∃ e, encode heap limit [] v 0 = .error e) ↔
      (∃ n w, Occurs heap v n w ∧ (64 < n ∨ Fault heap w)) ∨
        ∃ d, Unfolds heap d v ∧ limit < (style.render d).length) ∧
    (∀ n k w, Occurs heap v n w → Occurs heap w (k + 1) w →
      ∃ e, encode heap limit [] v 0 = .error e) := by
  refine ⟨?_, ⟨?_, ?_⟩, ?_⟩
  · intro out h
    obtain ⟨d, hd, _, rfl, hfit⟩ := encode_ok htext h
    have hspelt := (style_lawful.element (unfolds_floatFree hd)).text
    exact ⟨hfit, d, hd, hspelt, Json.parse_text hspelt⟩
  · intro ⟨e, he⟩
    by_cases hgood : Encodable heap 65 v
    · obtain ⟨d, hd, hheight⟩ := exists_unfolding hgood htext
      refine .inr ⟨d, hd, ?_⟩
      by_contra hfit
      rw [encode_of_unfolds hd (Nat.le_of_lt_succ hheight) (Nat.not_lt.mp hfit)] at he
      cases he
    · obtain ⟨n, hgood⟩ := not_forall.mp hgood
      obtain ⟨w, hgood⟩ := not_forall.mp hgood
      obtain ⟨hocc, hbad⟩ := Classical.not_imp.mp hgood
      refine .inl ⟨n, w, hocc, ?_⟩
      rcases not_and_or.mp hbad with hdeep | hfault
      · exact .inl (by omega)
      · exact .inr (not_not.mp hfault)
  · intro h
    rcases h with ⟨n, w, hocc, hbad⟩ | ⟨d, hd, hlong⟩
    · exact encode_raises_of_deep hocc hbad
    · refine error_of_not_ok (fun out h => ?_)
      obtain ⟨e, he, _, rfl, hfit⟩ := encode_ok htext h
      rw [unfolds_unique hd he] at hlong
      omega
  · intro n k w hocc hcycle
    obtain ⟨m, hm, hbelow⟩ := hcycle.cycle heap 65
    exact encode_raises_of_deep (hocc.append heap hbelow) (.inl (by omega))

/-- A record, its data and a string: all there is under the first address. -/
def sampleHeap : Heap
  | 0 => .record (.object 1)
  | 1 => .hash [(.symbol (utf8 "a"), .string (utf8 "é"))]
  | _ => .other

theorem textual_string (heap : Heap) (s : String) : Textual heap (.string (utf8 s)) := by
  have hroot : ∀ n w, Occurs heap (.string (utf8 s)) n w → w = .string (utf8 s) := by
    intro n w hocc
    cases hocc with
    | root _ => rfl
    | deeper hchild _ => cases hchild with | item h _ | member h _ => cases h
  constructor
  · intro n w bytes hocc hshape
    obtain rfl := hroot n w hocc
    exact ⟨s, Shape.text.inj hshape⟩
  · intro n w entries hocc hshape
    obtain rfl := hroot n w hocc
    cases hshape

theorem sampleHeap_textual : Textual sampleHeap (.object 0) := by
  have hroot : ∀ n w, Occurs sampleHeap (.object 0) n w →
      w = .object 0 ∨ Occurs sampleHeap (.string (utf8 "é")) (n - 1) w := by
    intro n w hocc
    cases hocc with
    | root _ => exact .inl rfl
    | deeper hchild hrest =>
      cases hchild with
      | item h _ => cases h
      | member h he =>
        obtain rfl := Shape.hash.inj h
        obtain rfl := List.mem_singleton.mp he
        exact .inr hrest
  have hleaf := textual_string sampleHeap "é"
  constructor
  · intro n w bytes hocc hshape
    rcases hroot n w hocc with rfl | hocc
    · cases hshape
    · exact hleaf.texts _ w bytes hocc hshape
  · intro n w entries hocc hshape e he bytes hbytes
    rcases hroot n w hocc with rfl | hocc
    · obtain rfl := Shape.hash.inj hshape
      obtain rfl := List.mem_singleton.mp he
      exact ⟨"a", Option.some.inj hbytes⟩
    · exact hleaf.keys _ w entries hocc hshape e he bytes hbytes

theorem encode_object_graph_sample :
    ∃ out, encode sampleHeap 10 [] (.object 0) 0 = .ok out ∧
      ∃ d, Unfolds sampleHeap d (.object 0) ∧ parse out = some d := by
  have hrun : encode sampleHeap 10 [] (.object 0) 0 =
      .ok ([0x7b, 0x22, 0x61, 0x22, 0x3a, 0x22] ++ utf8 "é" ++ [0x22, 0x7d]) := by decide
  obtain ⟨_, d, hd, _, hparse⟩ :=
    (encode_object_graph sampleHeap 10 (.object 0) sampleHeap_textual).1 _ hrun
  exact ⟨_, hrun, d, hd, hparse⟩

end RubyEngine.Guest
