import Mathlib.Data.Nat.Digits.Defs
import RubyEngine.Client
import RubyEngine.Framing
import RubyEngine.Guest.EncodeCorrect
import RubyEngine.Guest.Run
import RubyEngine.Serde.Floats

/-!
# The event of an encoded result

The text of the encoder is parsed again and put into the completed event. The
event nests little deeper than the result, prints into one frame, and keeps every
member but the measured time when it is read back.
-/
namespace RubyEngine.Guest

open Json (Doc Integer Number Style Value)

/-! ## Names -/

/-- No key of a hash or record under the value begins with a NUL byte. -/
def NulFree (heap : Heap) (v : MrbValue) : Prop :=
  ∀ n w entries, Occurs heap v n w → shape heap w = .hash entries →
    ∀ e ∈ entries, ∀ bytes, e.1.text = some bytes → bytes.head? ≠ some 0

theorem head_utf8 (s : String) : (utf8 s).head? = some 0 ↔ s.toList.head? = some '\x00' := by
  rw [utf8]
  cases s.toList with
  | nil => simp
  | cons c cs =>
    rw [encodeChars_cons, List.head?_cons, Option.some.injEq]
    constructor
    · intro h
      by_cases hc : c.toNat < 128
      · rw [encode_ascii hc, List.singleton_append, List.head?_cons, Option.some.injEq] at h
        have hzero := congrArg UInt8.toNat h
        rw [UInt8.toNat_ofNat'] at hzero
        have hn : c.toNat = 0 := by
          have hmod : c.toNat % 2 ^ 8 = 0 := hzero
          omega
        exact Char.toNat_inj.mp hn
      · have hhigh := encode_high hc
        obtain ⟨b, rest, hb⟩ := List.exists_cons_of_ne_nil (String.utf8EncodeChar_ne_nil (c := c))
        rw [hb] at h hhigh
        rw [List.cons_append, List.head?_cons, Option.some.injEq] at h
        have hge := hhigh b (List.mem_cons_self ..)
        rw [h] at hge
        exact absurd hge (by decide)
    · rintro rfl
      rfl

theorem NulFree.child {heap : Heap} {v x : MrbValue} (h : NulFree heap v) (hchild : Child heap v x) :
    NulFree heap x := fun n w entries hocc => h (n + 1) w entries (.deeper hchild hocc)

theorem nulFree_leaf {heap : Heap} {v : MrbValue} (harray : ∀ items, shape heap v ≠ .array items)
    (hhash : ∀ entries, shape heap v ≠ .hash entries) : NulFree heap v := by
  intro n w entries hocc hshape
  cases hocc with
  | root => exact absurd hshape (hhash entries)
  | deeper hchild _ =>
    cases hchild with
    | item hv _ => exact absurd hv (harray _)
    | member hv _ => exact absurd hv (hhash _)

/-- The client can read the document exactly if no key begins with a NUL byte. -/
theorem readable_iff {heap : Heap} {d : Doc} {v : MrbValue} (h : Unfolds heap d v) :
    Client.readable d = true ↔ NulFree heap v := by
  induction d using Doc.induct generalizing v with
  | null | bool | string =>
    rw [Unfolds] at h
    exact iff_of_true rfl (nulFree_leaf (by simp [h]) (by simp [h]))
  | number n =>
    obtain ⟨i, h, _⟩ := h
    exact iff_of_true rfl (nulFree_leaf (by simp [h]) (by simp [h]))
  | array ds ih =>
    obtain ⟨items, hitems, hds⟩ := h
    rw [Client.readable_array]
    constructor
    · intro hread n w entries hocc hshape
      cases hocc with
      | root =>
        rw [hitems] at hshape
        cases hshape
      | deeper hchild hrest =>
        cases hchild with
        | item hv hx =>
          obtain rfl := Shape.array.inj (hitems.symm.trans hv)
          obtain ⟨d, hd, hfound⟩ := unfoldsItems_right hds _ hx
          exact (ih d hd hfound).mp (hread d hd) _ w entries hrest hshape
        | member hv _ =>
          rw [hitems] at hv
          cases hv
    · intro hfree d hd
      obtain ⟨x, hx, hfound⟩ := unfoldsItems_left hds d hd
      exact (ih d hd hfound).mpr (hfree.child (.item hitems hx))
  | object ms ih =>
    obtain ⟨entries, hentries, hms, _⟩ := h
    rw [Client.readable_object]
    constructor
    · intro hread n w entries' hocc hshape
      cases hocc with
      | root =>
        obtain rfl := Shape.hash.inj (hentries.symm.trans hshape)
        intro e he bytes hbytes hnul
        obtain ⟨m, hm, hkey, _⟩ := unfoldsEntries_right hms e he
        obtain rfl := Option.some.inj (hkey.symm.trans hbytes)
        exact (hread m hm).1 ((head_utf8 m.1).mp hnul)
      | deeper hchild hrest =>
        cases hchild with
        | item hv _ =>
          rw [hentries] at hv
          cases hv
        | member hv he =>
          obtain rfl := Shape.hash.inj (hentries.symm.trans hv)
          obtain ⟨m, hm, _, hfound⟩ := unfoldsEntries_right hms _ he
          exact (ih m hm hfound).mp (hread m hm).2 _ w entries' hrest hshape
    · intro hfree m hm
      obtain ⟨e, he, hkey, hfound⟩ := unfoldsEntries_left hms m hm
      refine ⟨fun hnul => ?_, (ih m hm hfound).mpr (hfree.child (.member hentries he))⟩
      exact hfree 0 v entries (.root v) hentries e he _ hkey ((head_utf8 m.1).mpr hnul)

/-! ## The completed event -/

section Event

variable {request : Request} {host : Host} {native : NativeResult} {result time : Value}

/-- What a measured time can be, before and after it has been printed. -/
def IsTime (time : Value) : Prop := time = .null ∨ ∃ n, time.doc = .number n

theorem isTime_milliseconds (cpuMs : Option UInt64) : IsTime (milliseconds cpuMs) := by
  cases cpuMs with
  | none => exact Or.inl rfl
  | some bits => exact Or.inr ⟨_, rfl⟩

theorem IsTime.mapNumbers (h : IsTime time) (f : Number → Number) : IsTime (time.mapNumbers f) := by
  rcases h with rfl | ⟨n, hn⟩
  · exact Or.inl rfl
  · refine Or.inr ⟨f n, ?_⟩
    rw [Value.doc_mapNumbers, hn]
    rfl

theorem conclusion_encoded {serde : SerdeJson} (hs : serde.Standard) {heap : Heap} {limit : Nat}
    {v : MrbValue} {json : Bytes} {d : Doc} (hd : Unfolds heap d v)
    (hencode : encode heap limit [] v 0 = .ok json) (hjson : native.json = some json)
    (cpuMs : Option UInt64) :
    conclusion serde request host native cpuMs =
      .ok (completedEvent request host native (Value.ofDoc d) (milliseconds cpuMs)) := by
  obtain ⟨hheight, rfl, _⟩ := encode_ok_of_unfolds hd hencode
  have hnesting := Doc.nesting_le_height_succ d
  have hread := hs.parses _ _ (style_lawful.element (unfolds_floatFree hd)).text
    (by omega : d.nesting < 128)
  rw [conclusion, hjson]
  simp only [hread]

/-- The error of the event. -/
def reported (request : Request) (native : NativeResult) : Value :=
  if native.status ≠ 0 then diagnostic request native else .null

theorem completedEvent_eq (request : Request) (host : Host) (native : NativeResult)
    (result time : Value) : completedEvent request host native result time =
      Value.object [("protocol", .string PROTOCOL), ("profile", .string PROFILE),
        ("execution_id", .string request.executionId), ("kind", .string "completed"),
        ("validated_only", .bool request.validateOnly), ("result", result),
        ("error", reported request native),
        ("usage", Value.object [("peak_memory_bytes", .u64 native.peakMemory),
          ("instructions", .u64 native.instructions), ("calls", .u64 host.calls),
          ("cpu_ms", time)])] := rfl

theorem reported_null (request : Request) (hstatus : native.status = 0) :
    reported request native = .null := if_neg (not_not.mpr hstatus)

/-- An optional number. -/
theorem leaf_line (p : Prop) [Decidable p] (n : Int32) :
    ∃ d, (if p then signed n else Value.null).doc = d ∧ (d = .null ∨ ∃ i, d = .number (.int i)) := by
  split
  · exact ⟨_, rfl, Or.inr ⟨_, rfl⟩⟩
  · exact ⟨_, rfl, Or.inl rfl⟩

/-- A diagnostic is flat and has no float. -/
theorem reported_shape (request : Request) (native : NativeResult) :
    (reported request native).doc.nesting ≤ 1 ∧ (reported request native).doc.floatFree = true := by
  unfold reported
  split
  · obtain ⟨line, hline, hleaf⟩ := leaf_line (0 < native.line) native.line
    obtain ⟨column, hcolumn, hleaf'⟩ :=
      leaf_line (0 < native.line ∧ 0 ≤ native.column) native.column
    constructor
    · refine Value.nesting_object ?_
      simp only [List.forall_mem_cons, hline, hcolumn]
      rcases hleaf with rfl | ⟨i, rfl⟩ <;> rcases hleaf' with rfl | ⟨j, rfl⟩ <;> simp [Doc.nesting]
    · refine Value.floatFree_object ?_
      simp only [List.forall_mem_cons, hline, hcolumn]
      rcases hleaf with rfl | ⟨i, rfl⟩ <;> rcases hleaf' with rfl | ⟨j, rfl⟩ <;>
        exact ⟨rfl, rfl, rfl, rfl, rfl, by simp⟩
  · exact ⟨by decide, rfl⟩

theorem nesting_completed (htime : IsTime time) {n : Nat} (hn : 1 ≤ n)
    (hresult : result.doc.nesting ≤ n) :
    (completedEvent request host native result time).doc.nesting ≤ n + 1 := by
  have hleaf : time.doc.nesting ≤ 0 := by
    rcases htime with rfl | ⟨n, hn⟩
    · exact Nat.le_refl 0
    · rw [hn]
      exact Nat.le_refl 0
  have husage : (Value.object [("peak_memory_bytes", .u64 native.peakMemory),
      ("instructions", .u64 native.instructions), ("calls", .u64 host.calls),
      ("cpu_ms", time)]).doc.nesting ≤ 1 := by
    refine Value.nesting_object ?_
    simpa [Doc.nesting, Doc.u64] using hleaf
  have herror := (reported_shape request native).1.trans hn
  rw [completedEvent_eq]
  refine Value.nesting_object ?_
  simp only [List.forall_mem_cons]
  simp [Doc.nesting, hresult, herror, husage.trans hn]

theorem index_completed (request : Request) (host : Host) (native : NativeResult)
    (result time : Value) :
    (completedEvent request host native result time).index "protocol" = .string PROTOCOL ∧
    (completedEvent request host native result time).index "execution_id" =
      .string request.executionId ∧
    (completedEvent request host native result time).index "kind" = .string "completed" ∧
    (completedEvent request host native result time).index "result" = result.doc := by
  simp [completedEvent, SortedMap.lookup]

theorem error_completed (request : Request) (host : Host) (native : NativeResult)
    (result time : Value) : (completedEvent request host native result time).index "error" =
      (reported request native).doc := by
  rw [completedEvent_eq]
  simp [SortedMap.lookup]

theorem readable_reported (request : Request) (native : NativeResult) :
    Client.readable (reported request native).doc = true := by
  have hstring : ∀ text, Client.readable (.string text) = true := fun _ => rfl
  unfold reported
  split
  · obtain ⟨line, hline, hleaf⟩ := leaf_line (0 < native.line) native.line
    obtain ⟨column, hcolumn, hleaf'⟩ :=
      leaf_line (0 < native.line ∧ 0 ≤ native.column) native.column
    have hreadable : ∀ d, (d = .null ∨ ∃ i, d = Doc.number (.int i)) → Client.readable d = true := by
      rintro d (rfl | ⟨i, rfl⟩) <;> rfl
    rw [diagnostic, Client.readable_valueObject (by simp)]
    simp only [List.forall_mem_cons, hline, hcolumn, Value.doc_string, hstring, hreadable _ hleaf,
      hreadable _ hleaf']
    simp
  · rfl

theorem readable_completed (htime : IsTime time) :
    Client.readable (completedEvent request host native result time).doc =
      Client.readable result.doc := by
  have hleaf : Client.readable time.doc = true := by
    rcases htime with rfl | ⟨n, hn⟩
    · rfl
    · rw [hn]
      rfl
  have hu64 : ∀ n, Client.readable (Doc.u64 n) = true := fun _ => rfl
  have hstring : ∀ text, Client.readable (.string text) = true := fun _ => rfl
  have hbool : ∀ b, Client.readable (.bool b) = true := fun _ => rfl
  rw [Bool.eq_iff_iff, completedEvent_eq, Client.readable_valueObject (by simp)]
  simp only [List.forall_mem_cons, Value.doc_string, Value.doc_bool, hstring, hbool,
    readable_reported]
  rw [Client.readable_valueObject (by simp)]
  simp [hleaf, hu64]

/-- Reading the event back changes no more than the time. -/
theorem completed_reread (hresult : result.doc.floatFree = true) (f : UInt64 → Number) :
    (completedEvent request host native result time).mapNumbers (Number.reread f) =
      completedEvent request host native result (time.mapNumbers (Number.reread f)) := by
  have hsame : result.mapNumbers (Number.reread f) = result :=
    Value.ext_doc (Doc.mapNumbers_reread hresult)
  have herror : (reported request native).mapNumbers (Number.reread f) = reported request native :=
    Value.ext_doc (Doc.mapNumbers_reread (reported_shape request native).2)
  simp only [completedEvent_eq, Value.mapNumbers_object, List.map_cons, List.map_nil, hsame, herror]
  rfl

/-! ## Its text -/

theorem resultBytes_le (h : request.Admissible) :
    request.limits.resultBytes ≤ 4 * 1024 * 1024 := by
  have hlimits := h.limits
  simp only [Limits.exceeds, Bool.or_eq_false_iff, decide_eq_false_iff_not] at hlimits
  omega

theorem length_digits_le (n : Nat) (h : n < 2 ^ 64) : (Json.digits n).length ≤ 20 := by
  rw [Json.digits, List.length_map]
  exact Nat.toDigits_length 10 n 20 (by decide) (h.trans (by decide))

theorem length_u64_le (s : Style) (n : Nat) : (s.render (Doc.u64 n)).length ≤ 20 := by
  have hwrap : n % 2 ^ 64 < 2 ^ 64 := Nat.mod_lt _ (by decide)
  show (Json.decimal ((n % 2 ^ 64 : Nat) : Int)).length ≤ 20
  rw [Json.decimal, if_neg (Int.not_lt.mpr (Int.natCast_nonneg _)), Int.natAbs_natCast]
  exact length_digits_le _ hwrap

theorem length_integer_le (s : Style) (i : Integer) :
    (s.render (.number (.int i))).length ≤ 21 := by
  have hlow := i.property.1
  have hhigh := i.property.2
  have hdigits := length_digits_le i.val.natAbs (by omega)
  show (Json.decimal i.val).length ≤ 21
  rw [Json.decimal]
  split
  · rw [List.length_cons]
    omega
  · omega

theorem length_time_le {float : UInt64 → Bytes} (hfloat : ∀ bits, (float bits).length ≤ floatLimit)
    (htime : IsTime time) : ((compactWith float).render time.doc).length ≤ 24 := by
  rcases htime with rfl | ⟨n, hn⟩
  · exact (by decide : Json.Ascii.null.length ≤ 24)
  · rw [hn]
    cases n with
    | float bits => exact hfloat bits
    | int i => exact (length_integer_le (compactWith float) i).trans (by decide)

/-- A result of `n` bytes and an error of `m` make an event that is little longer. -/
theorem length_completed {float : UInt64 → Bytes} (hfloat : ∀ bits, (float bits).length ≤ floatLimit)
    (host : Host) (htime : IsTime time) (hid : (utf8 request.executionId).length ≤ 128) {n m : Nat}
    (hresult : ((compactWith float).render result.doc).length ≤ n)
    (herror : ((compactWith float).render (reported request native).doc).length ≤ m) :
    ((compactWith float).render (completedEvent request host native result time).doc).length ≤
      n + m + 1296 := by
  have husage : ((compactWith float).render (Value.object
      [("peak_memory_bytes", .u64 native.peakMemory), ("instructions", .u64 native.instructions),
        ("calls", .u64 host.calls), ("cpu_ms", time)]).doc).length ≤ 142 := by
    have hpeak := length_memberSize_le float "peak_memory_bytes" (k := 21)
      (by decide) (length_u64_le _ native.peakMemory)
    have hinstructions := length_memberSize_le float "instructions" (k := 16)
      (by decide) (length_u64_le _ native.instructions)
    have hcalls := length_memberSize_le float "calls" (k := 9)
      (by decide) (length_u64_le _ host.calls)
    have hcpu := length_memberSize_le float "cpu_ms" (k := 10) (by decide)
      (length_time_le hfloat htime)
    refine (Style.length_valueObject_le _).trans ?_
    simp only [List.map_cons, List.map_nil, List.sum_cons, List.sum_nil, Value.doc_u64]
    omega
  have hprotocol := length_memberSize_le float "protocol" (k := 12)
    (d := .string PROTOCOL) (n := 15) (by decide)
    (by decide : (compact.quote PROTOCOL).length ≤ 15)
  have hprofile := length_memberSize_le float "profile" (k := 11)
    (d := .string PROFILE) (n := 21) (by decide)
    (by decide : (compact.quote PROFILE).length ≤ 21)
  have hexecution := length_memberSize_le float "execution_id" (k := 16)
    (d := .string request.executionId) (by decide) (length_quote_le float _)
  have hkind := length_memberSize_le float "kind" (k := 8)
    (d := .string "completed") (n := 11) (by decide)
    (by decide : (compact.quote "completed").length ≤ 11)
  have hvalidated := length_memberSize_le float "validated_only" (k := 18)
    (d := .bool request.validateOnly) (n := 5) (by decide)
    (by cases request.validateOnly <;> simp [Style.render, Json.Ascii.true, Json.Ascii.false])
  have hvalue := length_memberSize_le float "result" (k := 10) (by decide) hresult
  have hreported := length_memberSize_le float "error" (k := 9) (by decide) herror
  have huse := length_memberSize_le float "usage" (k := 9) (by decide) husage
  rw [completedEvent_eq]
  refine (Style.length_valueObject_le _).trans ?_
  simp only [List.map_cons, List.map_nil, List.sum_cons, List.sum_nil, Value.doc_string,
    Value.doc_bool]
  omega

/-- The event of a result and an error that are not too long fits into a frame. -/
theorem fits_completed {serde : SerdeJson} (hn : serde.Numeric) (hrequest : request.Admissible)
    (host : Host) (htime : IsTime time)
    (hresult : ∀ float, ((compactWith float).render result.doc).length ≤ 4 * 1024 * 1024)
    (herror : ∀ float, ((compactWith float).render (reported request native).doc).length ≤ 40000) :
    Framing.Fits MAX_FRAME (serde.toVec (completedEvent request host native result time)) := by
  obtain ⟨float, hfloat, hprints⟩ := hn.prints
  have hevent := length_completed hfloat host htime hrequest.identity.2 (hresult float)
    (herror float)
  have hmax : 4 * 1024 * 1024 + 50000 ≤ MAX_FRAME := by decide
  rw [hprints]
  constructor
  · show 0 < ((compactWith float).render (.object _)).length
    rw [Style.render, List.cons_append, List.length_cons]
    exact Nat.succ_pos _
  · omega

/-- What the encoder wrote is no longer when it is printed again. -/
theorem length_encoded (hrequest : request.Admissible) {heap : Heap} {v : MrbValue} {json : Bytes}
    {d : Doc} (hd : Unfolds heap d v)
    (hencode : encode heap request.limits.resultBytes [] v 0 = .ok json) (float : UInt64 → Bytes) :
    ((compactWith float).render (Value.ofDoc d).doc).length ≤ 4 * 1024 * 1024 := by
  obtain ⟨_, rfl, hlength⟩ := encode_ok_of_unfolds hd hencode
  have hminimal : (compactWith float).Minimal := compact_minimal
  have htext : ((compactWith float).render (Value.ofDoc d).doc).length ≤ (style.render d).length :=
    hminimal.text (style_lawful.element (unfolds_floatFree hd)).text
  exact htext.trans (hlength.trans (resultBytes_le hrequest))

end Event

end RubyEngine.Guest
