import RubyEngine.Serde.Reference
import RubyEngine.Supervisor.Capability

/-!
# What the supervisor decodes and encodes again

The supervisor reads a request, completes it with the defaults of what it leaves
out and prints it for the guest; a reply of the host is printed as it was read.
Printing never makes a text longer, but the names and the defaults may.
-/
namespace RubyEngine.Delivery

open Json (Doc Value Text)
open SortedMap (lookup)

/-! ## Derived structures -/

/-- The document lists the fields of a structure without their names. -/
def listed : Doc → Bool
  | .array _ => true
  | _ => false

/-- What printing a structure adds to its compact text: the default of each field
that is left out, the name of each field that was listed, and what `inner` says of
a field that is a structure itself. -/
def growth (names : List String) (default : String → Doc) (inner : String → Doc → Nat)
    (d : Doc) : Nat :=
  match structFields names d with
  | none => 0
  | some fields =>
      (names.map (fun name => match lookup name fields with
        | some x => inner name x + if listed d then (compact.quote name).length + 1 else 0
        | none => compact.memberSize (name, default name))).sum

theorem structFields_cases {names : List String} {d : Doc} {fields : List (String × Doc)}
    (h : structFields names d = some fields) :
    (d = .object fields ∧ ∀ e ∈ fields, e.1 ∈ names) ∨
      ∃ items, d = .array items ∧ items.length ≤ names.length ∧ fields = names.zip items := by
  cases d with
  | object entries =>
    simp only [structFields, Option.ite_none_right_eq_some, Option.some.injEq] at h
    obtain ⟨hall, rfl⟩ := h
    refine Or.inl ⟨rfl, ?_⟩
    intro e he
    exact of_decide_eq_true (List.all_eq_true.mp hall e he)
  | array items =>
    simp only [structFields, Option.ite_none_right_eq_some, Option.some.injEq] at h
    exact Or.inr ⟨items, rfl, h.1, h.2.symm⟩
  | null | bool | number | string => cases h

theorem fst_zip_sublist (names : List String) (items : List Doc) :
    ((names.zip items).map Prod.fst).Sublist names := by
  induction names generalizing items with
  | nil => exact List.Sublist.refl _
  | cons name names ih =>
    cases items with
    | nil => exact List.nil_sublist _
    | cons item items => exact (ih items).cons_cons name

/-- The fields are named, each once, and no deeper than the document. -/
structure WellNamed (names : List String) (d : Doc) (fields : List (String × Doc)) : Prop where
  nodup : (fields.map Prod.fst).Nodup
  known : ∀ e ∈ fields, e.1 ∈ names
  canonical : ∀ e ∈ fields, e.2.canonical = true
  nesting : ∀ e ∈ fields, e.2.nesting + 1 ≤ d.nesting

theorem wellNamed {names : List String} (hnames : names.Nodup) {d : Doc} (hd : d.canonical = true)
    {fields : List (String × Doc)} (h : structFields names d = some fields) :
    WellNamed names d fields := by
  rcases structFields_cases h with ⟨rfl, hknown⟩ | ⟨items, rfl, hle, rfl⟩
  · obtain ⟨hsorted, hcanonical⟩ := Doc.canonical_object.mp hd
    refine ⟨hsorted.nodup, hknown, hcanonical, ?_⟩
    intro e he
    rw [Doc.nesting]
    exact Nat.add_le_add_right (Doc.nestingEntries_le.mp (Nat.le_refl _) e he) 1
  · have hcanonical := Doc.canonical_array.mp hd
    refine ⟨?_, ?_, ?_, ?_⟩
    · exact hnames.sublist (fst_zip_sublist names items)
    · intro e he
      exact (List.of_mem_zip he).1
    · intro e he
      exact hcanonical _ (List.of_mem_zip he).2
    · intro e he
      rw [Doc.nesting]
      exact Nat.add_le_add_right
        (Doc.nestingItems_le.mp (Nat.le_refl _) _ (List.of_mem_zip he).2) 1

theorem sum_named (fields : List (String × Doc)) :
    (fields.map (fun e => (compact.render e.2).length + 1)).sum +
        (fields.map (fun e => (compact.quote e.1).length + 1)).sum =
      (fields.map compact.memberSize).sum := by
  rw [← List.sum_map_add]
  congr 1
  refine List.map_congr_left (fun e _ => ?_)
  rw [Json.Style.memberSize]
  omega

/-- The compact text of a structure against that of its named fields. -/
theorem length_fields {names : List String} {d : Doc} {fields : List (String × Doc)}
    (h : structFields names d = some fields) (hne : fields ≠ []) :
    (compact.render d).length +
        (fields.map (fun e => if listed d then (compact.quote e.1).length + 1 else 0)).sum =
      (fields.map compact.memberSize).sum + 1 := by
  rcases structFields_cases h with ⟨rfl, _⟩ | ⟨items, rfl, hle, rfl⟩
  · rw [Json.Style.length_object hne]
    simp [listed]
  · have hitems : items = (names.zip items).map Prod.snd := (List.map_snd_zip hle).symm
    have hne' : items ≠ [] := by
      rintro rfl
      exact hne List.zip_nil_right
    rw [Json.Style.length_array hne']
    have hlength : (items.map (fun d => (compact.render d).length + 1)).sum =
        ((names.zip items).map (fun e => (compact.render e.2).length + 1)).sum := by
      conv_lhs => rw [hitems]
      rw [List.map_map]
      rfl
    have hsum := sum_named (names.zip items)
    simp only [listed, ↓reduceIte]
    omega

/-- The text of the structure with all its names and defaults. -/
theorem length_reencoded {names : List String} (hnames : names.Nodup) {default : String → Doc}
    {inner : String → Doc → Nat} {d : Doc} (hd : d.canonical = true)
    {fields : List (String × Doc)} (h : structFields names d = some fields) (hne : fields ≠ [])
    {member : String → Doc}
    (hsome : ∀ name ∈ names, ∀ x, lookup name fields = some x →
      (compact.render (member name)).length = (compact.render x).length + inner name x)
    (hnone : ∀ name ∈ names, lookup name fields = none → member name = default name) :
    (compact.render (.object (SortedMap.ofList (names.map (fun n => (n, member n)))))).length =
      (compact.render d).length + growth names default inner d := by
  have hw := wellNamed hnames hd h
  have hkeys : ((names.map (fun n => (n, member n))).map Prod.fst) = names := by
    rw [List.map_map]
    exact List.map_id' names
  have hperm := SortedMap.ofList_perm (hkeys.symm ▸ hnames)
  have hnonempty : SortedMap.ofList (names.map (fun n => (n, member n))) ≠ [] := by
    obtain ⟨e, rest, rfl⟩ := List.exists_cons_of_ne_nil hne
    intro hnil
    rw [hnil] at hperm
    have hempty : names = [] := by simpa using hperm.symm.eq_nil
    have hmem := hw.known e (by simp)
    rw [hempty] at hmem
    cases hmem
  have hfields := length_fields h hne
  -- each name has its field and what is added to it, or its default
  have hsplit : (names.map (fun n => compact.memberSize (n, member n))).sum =
      (names.map (fun n => (lookup n fields).elim 0 (fun x => compact.memberSize (n, x)))).sum +
        (names.map (fun n => match lookup n fields with
          | some x => inner n x
          | none => compact.memberSize (n, default n))).sum := by
    rw [← List.sum_map_add]
    congr 1
    refine List.map_congr_left (fun n hn => ?_)
    cases hl : lookup n fields with
    | some x =>
      have hx := hsome n hn x hl
      simp only [Json.Style.memberSize, Option.elim_some]
      omega
    | none =>
      rw [hnone n hn hl]
      simp
  have hnamed : (names.map (fun n => (lookup n fields).elim 0
      (fun _ => if listed d then (compact.quote n).length + 1 else 0))).sum =
      (fields.map (fun e => if listed d then (compact.quote e.1).length + 1 else 0)).sum :=
    SortedMap.sum_lookup hnames hw.nodup hw.known
      (fun e => if listed d then (compact.quote e.1).length + 1 else 0)
  have hgrowth : growth names default inner d =
      (names.map (fun n => match lookup n fields with
        | some x => inner n x
        | none => compact.memberSize (n, default n))).sum +
      (names.map (fun n => (lookup n fields).elim 0
        (fun _ => if listed d then (compact.quote n).length + 1 else 0))).sum := by
    rw [growth, h, ← List.sum_map_add]
    dsimp only
    congr 1
    refine List.map_congr_left (fun n _ => ?_)
    cases lookup n fields with
    | some x => rfl
    | none => rfl
  rw [Json.Style.length_object hnonempty, (hperm.map _).sum_eq, List.map_map, Function.comp_def,
    hsplit, SortedMap.sum_lookup hnames hw.nodup hw.known compact.memberSize, hgrowth, hnamed]
  omega

/-! ## The request -/

theorem asStr_eq {x : Doc} {s : String} (h : x.asStr = some s) : x = .string s := by
  cases x with
  | string t => rw [Option.some.inj h]
  | null | bool | number | array | object => cases h

theorem asU64_eq {x : Doc} {n : Nat} (h : x.asU64 = some n) : x = .u64 n ∧ n < 2 ^ 64 := by
  cases x with
  | number m =>
    cases m with
    | int i =>
      rw [Doc.asU64] at h
      split at h
      · next hpos =>
        obtain rfl := Option.some.inj h
        have hi := i.property
        have hn : i.val.toNat < 2 ^ 64 := by omega
        refine ⟨?_, hn⟩
        rw [Doc.u64]
        congr 2
        apply Subtype.ext
        simp only [Json.Integer.wrap, Nat.mod_eq_of_lt hn]
        omega
      · cases h
    | float bits => cases h
  | null | bool | string | array | object => cases h

theorem asBool_eq {x : Doc} {b : Bool} (h : asBool x = some b) : x = .bool b := by
  cases x with
  | bool c => rw [Option.some.inj h]
  | null | number | string | array | object => cases h

theorem mapM_asStr {items : List Doc} {ss : List String} :
    items.mapM Doc.asStr = some ss ↔ items = ss.map Doc.string := by
  induction items generalizing ss with
  | nil => cases ss <;> simp
  | cons d rest ih =>
    simp only [List.mapM_cons, Option.bind_eq_bind, Option.bind_eq_some_iff, Option.pure_def,
      Option.some.injEq]
    constructor
    · rintro ⟨s, hs, tail, htail, rfl⟩
      rw [asStr_eq hs, ih.mp htail, List.map_cons]
    · intro h
      obtain ⟨s, tail, rfl, hd, htail⟩ := List.map_eq_cons_iff.mp h.symm
      exact ⟨s, by rw [← hd]; rfl, tail, ih.mpr htail.symm, rfl⟩

theorem asStrings_eq {x : Doc} {ss : List String} (h : asStrings x = some ss) :
    x = .array (ss.map Doc.string) := by
  cases x with
  | array items => rw [mapM_asStr.mp h]
  | null | bool | number | string | object => cases h

theorem required_eq {α : Type} {read : Doc → Option α} {field : String}
    {fields : List (String × Doc)} {a : α} (h : required read field fields = some a) :
    ∃ x, lookup field fields = some x ∧ read x = some a :=
  Option.bind_eq_some_iff.mp h

theorem defaulted_eq {α : Type} {read : Doc → Option α} {value : α} {field : String}
    {fields : List (String × Doc)} {a : α} (h : defaulted read value field fields = some a) :
    (lookup field fields = none ∧ a = value) ∨
      ∃ x, lookup field fields = some x ∧ read x = some a := by
  unfold defaulted at h
  split at h
  · next hl => exact Or.inl ⟨hl, (Option.some.inj h).symm⟩
  · next x hl => exact Or.inr ⟨x, hl, h⟩

def Limits.entries (l : Limits) : List (String × Doc) :=
  [("memory_bytes", .u64 l.memoryBytes), ("instructions", .u64 l.instructions),
    ("wall_ms", .u64 l.wallMs), ("cpu_ms", .u64 l.cpuMs), ("source_bytes", .u64 l.sourceBytes),
    ("result_bytes", .u64 l.resultBytes), ("calls", .u64 l.calls), ("log_bytes", .u64 l.logBytes)]

def Request.entries (r : Request) : List (String × Doc) :=
  [("protocol", .string r.protocol), ("profile", .string r.profile),
    ("execution_id", .string r.executionId), ("source", .string r.source),
    ("filename", .string r.filename), ("validate_only", .bool r.validateOnly),
    ("globals", r.globals.doc), ("catalog", .array (r.catalog.map Doc.string)),
    ("limits", r.limits.toValue.doc)]

/-- The document of a field. -/
def member (entries : List (String × Doc)) (name : String) : Doc :=
  (lookup name entries).getD .null

theorem limits_toValue (l : Limits) : l.toValue.doc =
    .object (SortedMap.ofList (Limits.fields.map (fun n => (n, member (Limits.entries l) n)))) := rfl

theorem request_toValue (r : Request) : r.toValue.doc =
    .object (SortedMap.ofList (Request.fields.map (fun n => (n, member (Request.entries r) n)))) := by
  have hcatalog : (r.catalog.map Value.string).map Value.doc = r.catalog.map Doc.string := by
    rw [List.map_map]
    rfl
  simp only [Request.toValue, Value.object, Value.array, List.map_cons, List.map_nil, hcatalog]
  rfl

/-! ## Reading back -/

theorem lookup_map (names : List String) (f : String → Doc) (name : String) :
    lookup name (names.map (fun n => (n, f n))) = if name ∈ names then some (f name) else none := by
  induction names with
  | nil => rfl
  | cons n rest ih =>
    rw [List.map_cons, lookup, ih]
    by_cases hn : name = n
    · simp [hn]
    · simp [hn]

theorem structFields_members (names : List String) (f : String → Doc) :
    structFields names (.object (SortedMap.ofList (names.map (fun n => (n, f n))))) =
      some (SortedMap.ofList (names.map (fun n => (n, f n)))) := by
  rw [structFields, if_pos]
  rw [List.all_eq_true]
  intro e he
  obtain ⟨n, hn, rfl⟩ := List.mem_map.mp (SortedMap.mem_ofList he)
  exact decide_eq_true hn

theorem lookup_members {names : List String} (f : String → Doc) {name : String}
    (h : name ∈ names) :
    lookup name (SortedMap.ofList (names.map (fun n => (n, f n)))) = some (f name) := by
  rw [SortedMap.lookup_ofList, ← List.map_reverse, lookup_map, if_pos (List.mem_reverse.mpr h)]

/-! ## The limits -/

/-- What printing adds to the limits: the default of the one field that may be left
out, and the names if they are listed without them. -/
def limitsGrowth (d : Doc) : Nat :=
  growth Limits.fields (fun _ => .u64 cpuBudget) (fun _ _ => 0) d

/-- Every limit is a word. -/
structure Words (l : Limits) : Prop where
  memoryBytes : l.memoryBytes < 2 ^ 64
  instructions : l.instructions < 2 ^ 64
  wallMs : l.wallMs < 2 ^ 64
  cpuMs : l.cpuMs < 2 ^ 64
  sourceBytes : l.sourceBytes < 2 ^ 64
  resultBytes : l.resultBytes < 2 ^ 64
  calls : l.calls < 2 ^ 64
  logBytes : l.logBytes < 2 ^ 64

theorem words_default : Words Limits.default := by
  constructor <;> decide

theorem limits_reencoded {d : Doc} {l : Limits} (h : Limits.ofDoc d = some l)
    (hd : d.canonical = true) :
    Words l ∧ (compact.render l.toValue.doc).length = (compact.render d).length + limitsGrowth d := by
  simp only [Limits.ofDoc, Option.bind_eq_bind, Option.bind_eq_some_iff, Option.pure_def,
    Option.some.injEq] at h
  obtain ⟨fields, hfields, memory, hmemory, instructions, hinstructions, wall, hwall, cpu, hcpu,
    source, hsource, result, hresult, calls, hcalls, log, hlog, rfl⟩ := h
  have hword : ∀ {name : String} {n : Nat}, required Doc.asU64 name fields = some n →
      n < 2 ^ 64 := by
    intro name n hn
    obtain ⟨x, _, hx⟩ := required_eq hn
    exact (asU64_eq hx).2
  have hsome : ∀ {name : String} {n : Nat}, required Doc.asU64 name fields = some n →
      ∀ x, lookup name fields = some x →
      (compact.render (.u64 n)).length = (compact.render x).length + 0 := by
    intro name n hn x hx
    obtain ⟨y, hy, hread⟩ := required_eq hn
    obtain rfl := Option.some.inj (hx.symm.trans hy)
    rw [(asU64_eq hread).1, Nat.add_zero]
  have hnone : ∀ {name : String} {n : Nat}, required Doc.asU64 name fields = some n →
      ∀ {P : Prop}, lookup name fields = none → P := by
    intro name n hn P hl
    obtain ⟨y, hy, _⟩ := required_eq hn
    rw [hl] at hy
    cases hy
  have hne : fields ≠ [] := by
    rintro rfl
    exact hnone hmemory rfl
  constructor
  · have hcpu' : cpu < 2 ^ 64 := by
      rcases defaulted_eq hcpu with ⟨_, rfl⟩ | ⟨x, _, hx⟩
      · decide
      · exact (asU64_eq hx).2
    exact ⟨hword hmemory, hword hinstructions, hword hwall, hcpu', hword hsource, hword hresult,
      hword hcalls, hword hlog⟩
  · rw [limits_toValue]
    refine length_reencoded (by decide) hd hfields hne ?_ ?_
    · intro name hname x hx
      simp only [Limits.fields, List.mem_cons, List.not_mem_nil, or_false] at hname
      rcases hname with rfl | rfl | rfl | rfl | rfl | rfl | rfl | rfl
      · exact hsome hmemory x hx
      · exact hsome hinstructions x hx
      · exact hsome hwall x hx
      · rcases defaulted_eq hcpu with ⟨hl, _⟩ | ⟨y, hy, hread⟩
        · rw [hx] at hl
          cases hl
        · obtain rfl := Option.some.inj (hx.symm.trans hy)
          obtain rfl := (asU64_eq hread).1
          rfl
      · exact hsome hsource x hx
      · exact hsome hresult x hx
      · exact hsome hcalls x hx
      · exact hsome hlog x hx
    · intro name hname hl
      simp only [Limits.fields, List.mem_cons, List.not_mem_nil, or_false] at hname
      rcases hname with rfl | rfl | rfl | rfl | rfl | rfl | rfl | rfl
      · exact hnone hmemory hl
      · exact hnone hinstructions hl
      · exact hnone hwall hl
      · rcases defaulted_eq hcpu with ⟨_, rfl⟩ | ⟨y, hy, _⟩
        · rfl
        · rw [hl] at hy
          cases hy
      · exact hnone hsource hl
      · exact hnone hresult hl
      · exact hnone hcalls hl
      · exact hnone hlog hl

theorem limits_back {l : Limits} (h : Words l) : Limits.ofDoc l.toValue.doc = some l := by
  have hread : ∀ name ∈ Limits.fields, ∀ n : Nat, n < 2 ^ 64 →
      member (Limits.entries l) name = .u64 n →
      required Doc.asU64 name
        (SortedMap.ofList (Limits.fields.map (fun n => (n, member (Limits.entries l) n)))) =
          some n := by
    intro name hname n hn hm
    rw [required, lookup_members _ hname, hm]
    exact Doc.asU64_u64 hn
  have hcpu : defaulted Doc.asU64 cpuBudget "cpu_ms"
      (SortedMap.ofList (Limits.fields.map (fun n => (n, member (Limits.entries l) n)))) =
        some l.cpuMs := by
    rw [defaulted, lookup_members _ (by decide)]
    exact Doc.asU64_u64 h.cpuMs
  rw [limits_toValue, Limits.ofDoc, structFields_members]
  simp only [Option.bind_eq_bind, Option.bind_some, Option.pure_def,
    hread "memory_bytes" (by decide) _ h.memoryBytes rfl,
    hread "instructions" (by decide) _ h.instructions rfl,
    hread "wall_ms" (by decide) _ h.wallMs rfl, hcpu,
    hread "source_bytes" (by decide) _ h.sourceBytes rfl,
    hread "result_bytes" (by decide) _ h.resultBytes rfl,
    hread "calls" (by decide) _ h.calls rfl,
    hread "log_bytes" (by decide) _ h.logBytes rfl]

/-! ## The request -/

def requestDefaults : List (String × Doc) :=
  [("filename", .string RubyEngine.filename), ("validate_only", .bool false),
    ("globals", .object []), ("catalog", .array []), ("limits", Limits.default.toValue.doc)]

/-- What printing adds to a request: the optional fields that are left out, here and
in the limits, and the names of a listing. -/
def requestGrowth (d : Doc) : Nat :=
  growth Request.fields (member requestDefaults)
    (fun name x => if name = "limits" then limitsGrowth x else 0) d

/-- A request that has been read from a document. -/
structure Reads (d : Doc) (r : Request) (fields : List (String × Doc)) : Prop where
  named : structFields Request.fields d = some fields
  protocol : lookup "protocol" fields = some (.string r.protocol)
  profile : lookup "profile" fields = some (.string r.profile)
  executionId : lookup "execution_id" fields = some (.string r.executionId)
  source : lookup "source" fields = some (.string r.source)
  filename : (lookup "filename" fields = none ∧ r.filename = RubyEngine.filename) ∨
    lookup "filename" fields = some (.string r.filename)
  validateOnly : (lookup "validate_only" fields = none ∧ r.validateOnly = false) ∨
    lookup "validate_only" fields = some (.bool r.validateOnly)
  globals : (lookup "globals" fields = none ∧ r.globals = emptyObject) ∨
    ∃ x, lookup "globals" fields = some x ∧ r.globals = Value.ofDoc x
  catalog : (lookup "catalog" fields = none ∧ r.catalog = []) ∨
    lookup "catalog" fields = some (.array (r.catalog.map Doc.string))
  limits : (lookup "limits" fields = none ∧ r.limits = Limits.default) ∨
    ∃ x, lookup "limits" fields = some x ∧ Limits.ofDoc x = some r.limits

theorem reads_of_ofValue {v : Value} {r : Request} (h : Request.ofValue v = some r) :
    ∃ fields, Reads v.doc r fields := by
  simp only [Request.ofValue, Option.bind_eq_bind, Option.bind_eq_some_iff, Option.pure_def,
    Option.some.injEq] at h
  obtain ⟨fields, hfields, protocol, hprotocol, profile, hprofile, id, hid, source, hsource, name,
    hname, validate, hvalidate, globals, hglobals, catalog, hcatalog, limits, hlimits, rfl⟩ := h
  have hstring : ∀ {field : String} {s : String}, required Doc.asStr field fields = some s →
      lookup field fields = some (.string s) := by
    intro field s hs
    obtain ⟨x, hx, hread⟩ := required_eq hs
    rw [hx, asStr_eq hread]
  refine ⟨fields, hfields, hstring hprotocol, hstring hprofile, hstring hid, hstring hsource,
    ?_, ?_, ?_, ?_, defaulted_eq hlimits⟩
  · rcases defaulted_eq hname with h | ⟨x, hx, hread⟩
    · exact Or.inl h
    · exact Or.inr (by rw [hx, asStr_eq hread])
  · rcases defaulted_eq hvalidate with h | ⟨x, hx, hread⟩
    · exact Or.inl h
    · exact Or.inr (by rw [hx, asBool_eq hread])
  · rcases defaulted_eq hglobals with h | ⟨x, hx, hread⟩
    · exact Or.inl h
    · exact Or.inr ⟨x, hx, (Option.some.inj hread).symm⟩
  · rcases defaulted_eq hcatalog with h | ⟨x, hx, hread⟩
    · exact Or.inl h
    · exact Or.inr (by rw [hx, asStrings_eq hread])

variable {d : Doc} {r : Request} {fields : List (String × Doc)}

theorem Reads.words (h : Reads d r fields) (hd : d.canonical = true) : Words r.limits := by
  rcases h.limits with ⟨_, hdefault⟩ | ⟨x, hx, hread⟩
  · rw [hdefault]
    exact words_default
  · have hw := wellNamed (by decide) hd h.named
    have hcanonical := hw.canonical _ (SortedMap.mem_of_lookup hx)
    exact (limits_reencoded hread hcanonical).1

/-- The size of the request that goes to the guest, by what has been read. -/
theorem Reads.length (h : Reads d r fields) (hd : d.canonical = true) :
    (compact.render r.toValue.doc).length = (compact.render d).length + requestGrowth d := by
  have hw := wellNamed (by decide) hd h.named
  have hne : fields ≠ [] := by
    rintro rfl
    exact absurd h.protocol (by simp [lookup])
  have hsame : ∀ {field : String} {y : Doc}, lookup field fields = some y →
      ∀ x, lookup field fields = some x →
      (compact.render y).length = (compact.render x).length + 0 := by
    intro field y hy x hx
    rw [Option.some.inj (hy.symm.trans hx), Nat.add_zero]
  have hpresent : ∀ {field : String} {y : Doc}, lookup field fields = some y →
      ∀ {P : Prop}, lookup field fields = none → P := by
    intro field y hy P hl
    rw [hl] at hy
    cases hy
  rw [request_toValue]
  refine length_reencoded (by decide) hd h.named hne ?_ ?_
  · intro name hname x hx
    simp only [Request.fields, List.mem_cons, List.not_mem_nil, or_false] at hname
    rcases hname with rfl | rfl | rfl | rfl | rfl | rfl | rfl | rfl | rfl
    · exact hsame h.protocol x hx
    · exact hsame h.profile x hx
    · exact hsame h.executionId x hx
    · exact hsame h.source x hx
    · rcases h.filename with ⟨hl, _⟩ | hy
      · exact hpresent hx hl
      · exact hsame hy x hx
    · rcases h.validateOnly with ⟨hl, _⟩ | hy
      · exact hpresent hx hl
      · exact hsame hy x hx
    · rcases h.globals with ⟨hl, _⟩ | ⟨y, hy, hglobals⟩
      · exact hpresent hx hl
      · have hcanonical := hw.canonical _ (SortedMap.mem_of_lookup hy)
        have hdoc : r.globals.doc = y := by
          rw [hglobals, Value.ofDoc]
          exact Doc.canon_of_canonical hcanonical
        rw [← hdoc] at hy
        exact hsame hy x hx
    · rcases h.catalog with ⟨hl, _⟩ | hy
      · exact hpresent hx hl
      · exact hsame hy x hx
    · rcases h.limits with ⟨hl, _⟩ | ⟨y, hy, hread⟩
      · exact hpresent hx hl
      · obtain rfl := Option.some.inj (hx.symm.trans hy)
        have hcanonical := hw.canonical _ (SortedMap.mem_of_lookup hx)
        exact (limits_reencoded hread hcanonical).2
  · intro name hname hl
    simp only [Request.fields, List.mem_cons, List.not_mem_nil, or_false] at hname
    rcases hname with rfl | rfl | rfl | rfl | rfl | rfl | rfl | rfl | rfl
    · exact hpresent h.protocol hl
    · exact hpresent h.profile hl
    · exact hpresent h.executionId hl
    · exact hpresent h.source hl
    · rcases h.filename with ⟨_, heq⟩ | hy
      · exact congrArg Doc.string heq
      · exact hpresent hy hl
    · rcases h.validateOnly with ⟨_, heq⟩ | hy
      · exact congrArg Doc.bool heq
      · exact hpresent hy hl
    · rcases h.globals with ⟨_, heq⟩ | ⟨y, hy, _⟩
      · exact congrArg Value.doc heq
      · exact hpresent hy hl
    · rcases h.catalog with ⟨_, heq⟩ | hy
      · exact congrArg (fun paths => Doc.array (paths.map Doc.string)) heq
      · exact hpresent hy hl
    · rcases h.limits with ⟨_, heq⟩ | ⟨y, hy, _⟩
      · exact congrArg (fun l => (Limits.toValue l).doc) heq
      · exact hpresent hy hl

/-- The guest reads the request that the supervisor has printed. -/
theorem request_back (hwords : Words r.limits) : Request.ofValue r.toValue = some r := by
  let found := SortedMap.ofList (Request.fields.map (fun n => (n, member (Request.entries r) n)))
  have hstring : ∀ name ∈ Request.fields, ∀ s : String,
      member (Request.entries r) name = .string s →
      required Doc.asStr name found = some s := by
    intro name hname s hm
    rw [required, lookup_members _ hname, hm]
    rfl
  have hdefaulted : ∀ {α : Type} (read : Doc → Option α) (value a : α), ∀ name ∈ Request.fields,
      read (member (Request.entries r) name) = some a →
      defaulted read value name found = some a := by
    intro α read value a name hname hm
    rw [defaulted, lookup_members _ hname]
    exact hm
  have hcatalog : asStrings (.array (r.catalog.map Doc.string)) = some r.catalog :=
    mapM_asStr.mpr rfl
  have hglobals : some (Value.ofDoc r.globals.doc) = some r.globals := by rw [Value.ofDoc_doc]
  rw [Request.ofValue, request_toValue, structFields_members]
  simp only [Option.bind_eq_bind, Option.bind_some, Option.pure_def]
  rw [hstring "protocol" (by decide) _ rfl, hstring "profile" (by decide) _ rfl,
    hstring "execution_id" (by decide) _ rfl, hstring "source" (by decide) _ rfl,
    hdefaulted Doc.asStr _ r.filename "filename" (by decide) rfl,
    hdefaulted asBool _ r.validateOnly "validate_only" (by decide) rfl,
    hdefaulted (fun d => some (Value.ofDoc d)) _ r.globals "globals" (by decide) hglobals,
    hdefaulted asStrings _ r.catalog "catalog" (by decide) hcatalog,
    hdefaulted Limits.ofDoc _ r.limits "limits" (by decide) (limits_back hwords)]
  rfl

theorem floatFree_request (h : r.globals.doc.floatFree = true) :
    r.toValue.doc.floatFree = true := by
  have hlimits : r.limits.toValue.doc.floatFree = true := by
    rw [limits_toValue, Doc.floatFree_object]
    intro e he
    obtain ⟨n, hn, rfl⟩ := List.mem_map.mp (SortedMap.mem_ofList he)
    simp only [Limits.fields, List.mem_cons, List.not_mem_nil, or_false] at hn
    rcases hn with rfl | rfl | rfl | rfl | rfl | rfl | rfl | rfl <;> rfl
  have hcatalog : (Doc.array (r.catalog.map Doc.string)).floatFree = true := by
    rw [Doc.floatFree_array]
    intro x hx
    obtain ⟨s, _, rfl⟩ := List.mem_map.mp hx
    rfl
  rw [request_toValue, Doc.floatFree_object]
  intro e he
  obtain ⟨n, hn, rfl⟩ := List.mem_map.mp (SortedMap.mem_ofList he)
  simp only [Request.fields, List.mem_cons, List.not_mem_nil, or_false] at hn
  rcases hn with rfl | rfl | rfl | rfl | rfl | rfl | rfl | rfl | rfl
  · rfl
  · rfl
  · rfl
  · rfl
  · rfl
  · rfl
  · exact h
  · exact hcatalog
  · exact hlimits

/-- The request is nested no deeper than what it has been read from, or than its defaults. -/
theorem Reads.nesting (h : Reads d r fields) (hd : d.canonical = true) (hlt : d.nesting < 128) :
    r.toValue.doc.nesting < 128 := by
  have hw := wellNamed (by decide) hd h.named
  have hlimits : r.limits.toValue.doc.nesting ≤ 1 := by
    rw [limits_toValue, Doc.nesting]
    refine Nat.add_le_add_right (Doc.nestingEntries_le.mpr ?_) 1
    intro e he
    obtain ⟨n, hn, rfl⟩ := List.mem_map.mp (SortedMap.mem_ofList he)
    simp only [Limits.fields, List.mem_cons, List.not_mem_nil, or_false] at hn
    rcases hn with rfl | rfl | rfl | rfl | rfl | rfl | rfl | rfl <;> exact Nat.le_refl 0
  have hcatalog : (Doc.array (r.catalog.map Doc.string)).nesting ≤ 1 := by
    rw [Doc.nesting]
    refine Nat.add_le_add_right (Doc.nestingItems_le.mpr ?_) 1
    intro x hx
    obtain ⟨s, _, rfl⟩ := List.mem_map.mp hx
    exact Nat.le_refl 0
  have hglobals : r.globals.doc.nesting ≤ 126 := by
    rcases h.globals with ⟨_, heq⟩ | ⟨x, hx, heq⟩
    · rw [heq]
      decide
    · have hx' := hw.nesting _ (SortedMap.mem_of_lookup hx)
      have hcanon := Doc.nesting_canon_le x
      rw [heq, Value.ofDoc]
      dsimp only at hx' ⊢
      omega
  have hentries : Doc.nestingEntries
      (SortedMap.ofList (Request.fields.map (fun n => (n, member (Request.entries r) n)))) ≤ 126 := by
    rw [Doc.nestingEntries_le]
    intro e he
    obtain ⟨n, hn, rfl⟩ := List.mem_map.mp (SortedMap.mem_ofList he)
    simp only [Request.fields, List.mem_cons, List.not_mem_nil, or_false] at hn
    rcases hn with rfl | rfl | rfl | rfl | rfl | rfl | rfl | rfl | rfl
    · exact Nat.zero_le _
    · exact Nat.zero_le _
    · exact Nat.zero_le _
    · exact Nat.zero_le _
    · exact Nat.zero_le _
    · exact Nat.zero_le _
    · exact hglobals
    · exact hcatalog.trans (by decide)
    · exact hlimits.trans (by decide)
  rw [request_toValue, Doc.nesting]
  omega

/-! ## The two hops -/

open Supervisor (Loop Effect Answers enter acceptReply)

/-- The supervisor loads the request for the guest, and the guest reads and admits the
same one. -/
def Delivers (serde : SerdeJson) (r : Request) : Prop :=
  ∃ bytes, enter serde r = .ok { toGuest := { bytes } } ∧
    ∃ v, readFrame serde bytes = .ok (v, []) ∧ Request.ofValue v = some r ∧ r.validate = .ok ()

/-- The supervisor loads the reply for the guest, and the guest reads the same one. -/
def Forwards (serde : SerdeJson) (request : Request) (s : Loop) (v : Value) : Prop :=
  ∃ t effects bytes, acceptReply serde request s v [] = .next t effects ∧
    t.toGuest = { bytes } ∧ readFrame serde bytes = .ok (v, [])

variable {serde : SerdeJson}

theorem readFrame_printed (hs : serde.Standard) (hc : serde.Compact) {v : Value} (hv : Plain v)
    (hlen : (serde.toVec v).length ≤ MAX_FRAME) :
    readFrame serde (Framing.frame (serde.toVec v)) = .ok (v, []) := by
  have hpos : 0 < (serde.toVec v).length := by
    rw [hc.prints v hv.1]
    exact List.length_pos_of_ne_nil (SerdeJson.render_ne_nil compact (fun _ => Json.digits_ne_nil 0) _)
  have hread := readFrame_frame serde ⟨hpos, hlen⟩ []
  rwa [hc.back hs hv, List.append_nil] at hread

theorem enter_of_large (hv : r.validate = .ok ())
    (hlen : MAX_FRAME < (serde.toVec r.toValue).length) :
    enter serde r = .error "Frame size limit" := by
  have he : (({} : Writer)).enqueue serde r.toValue = ({}, .error sizeLimit) := by
    rcases Writer.enqueue_cases serde ({} : Writer) r.toValue with h | h | h
    · exact absurd h.1 (by decide)
    · exact h.2.2
    · exact absurd h.2.1 (Nat.not_le.mpr hlen)
  simp only [enter, hv, he]
  rfl

/-- A reply that passes the checks is up to the buffer for the guest. -/
theorem acceptReply_answers (serde : SerdeJson) {request : Request} {s : Loop} {v : Value}
    (h : Answers request s v) (effects : List Effect) :
    acceptReply serde request s v effects =
      match s.toGuest.enqueue serde v with
      | (_, .error e) => .exit (.error e) effects
      | (w, .ok ()) =>
          .next { s with phase := .toGuest, toGuest := w, pendingSequence := none }
            (effects ++ [.enqueued .guest v]) := by
  obtain ⟨n, hpending, hsequence⟩ := h.outstanding
  have hkind : (v.index "kind").asStr ≠ some "cancel" := by
    rw [h.kind]
    decide
  unfold acceptReply
  refine (if_neg (by simp [h.identity])).trans ((if_neg hkind).trans (if_neg ?_))
  simp [h.kind, hpending, hsequence]

/-- A request reaches the guest exactly if it has room for the names and the defaults
that the supervisor adds. -/
theorem delivers_iff (hs : serde.Standard) (hc : serde.Compact) {v : Value}
    (hread : Request.ofValue v = some r) (hvalid : r.validate = .ok ())
    (hnesting : v.doc.nesting < 128) (hfloat : r.globals.doc.floatFree = true) :
    (Delivers serde r ↔ (compact.render v.doc).length + requestGrowth v.doc ≤ MAX_FRAME) ∧
      (MAX_FRAME < (compact.render v.doc).length + requestGrowth v.doc →
        enter serde r = .error "Frame size limit") := by
  obtain ⟨fields, hreads⟩ := reads_of_ofValue hread
  have hplain : Plain r.toValue :=
    ⟨floatFree_request hfloat, hreads.nesting v.canonical hnesting⟩
  have hlen : (serde.toVec r.toValue).length =
      (compact.render v.doc).length + requestGrowth v.doc := by
    rw [hc.prints _ hplain.1, hreads.length v.canonical]
  refine ⟨⟨?_, ?_⟩, fun hlarge => enter_of_large hvalid (hlen ▸ hlarge)⟩
  · rintro ⟨bytes, henter, _⟩
    by_contra hlarge
    rw [enter_of_large hvalid (by omega)] at henter
    cases henter
  · intro hfit
    rw [← hlen] at hfit
    exact ⟨_, Supervisor.enter_of_fits hvalid hfit, _, readFrame_printed hs hc hplain hfit,
      request_back (hreads.words v.canonical), hvalid⟩

/-- A reply reaches the guest exactly if the frame before it has been written. -/
theorem forwards_iff (hs : serde.Standard) (hc : serde.Compact) {payload : Bytes} {d : Doc}
    (hfits : Framing.Fits MAX_FRAME payload) (htext : Text payload d) (hnesting : d.nesting < 128)
    (hfloat : d.floatFree = true) {request : Request} {s : Loop}
    (hanswers : Answers request s (Value.ofDoc d)) :
    (Forwards serde request s (Value.ofDoc d) ↔ s.toGuest.pending = false) ∧
      (s.toGuest.pending = true →
        acceptReply serde request s (Value.ofDoc d) [] = .exit (.error backpressure) []) := by
  have hplain : Plain (Value.ofDoc d) :=
    ⟨Doc.floatFree_canon hfloat, (Doc.nesting_canon_le d).trans_lt hnesting⟩
  have hlen : (serde.toVec (Value.ofDoc d)).length ≤ MAX_FRAME := by
    rw [hc.prints _ hplain.1]
    exact (compact_minimal.text htext).trans hfits.bounded
  have haccept := acceptReply_answers serde hanswers []
  rcases Writer.enqueue_cases serde s.toGuest (Value.ofDoc d) with
    ⟨hp, he⟩ | ⟨_, hlarge, _⟩ | ⟨hp, _, he⟩
  · rw [he] at haccept
    refine ⟨⟨?_, fun hidle => ?_⟩, fun _ => haccept⟩
    · rintro ⟨t, effects, bytes, hgoes, _⟩
      rw [haccept] at hgoes
      cases hgoes
    · rw [hp] at hidle
      cases hidle
  · omega
  · rw [he] at haccept
    refine ⟨⟨fun _ => hp, fun _ => ?_⟩, fun hbusy => ?_⟩
    · exact ⟨_, _, _, haccept, rfl, readFrame_printed hs hc hplain hlen⟩
    · rw [hp] at hbusy
      cases hbusy

/-- The hop of the supervisor. A request that it admits is delivered as it was read,
exactly if its compact text, with the names and defaults that are added to it, is within the
limit of a frame, and is refused before anything is written otherwise; a reply that it accepts
is forwarded as it was read, exactly if the frame before it has been written. -/
theorem hop_delivers (serde : SerdeJson) (hs : serde.Standard) (hc : serde.Compact) :
    (∀ payload v r, Framing.Fits MAX_FRAME payload → serde.fromSlice payload = .ok v →
      Request.ofValue v = some r → r.validate = .ok () → r.globals.doc.floatFree = true →
      (Delivers serde r ↔ (compact.render v.doc).length + requestGrowth v.doc ≤ MAX_FRAME) ∧
      (MAX_FRAME < (compact.render v.doc).length + requestGrowth v.doc →
        enter serde r = .error "Frame size limit")) ∧
    (∀ payload d request s, Framing.Fits MAX_FRAME payload → Text payload d → d.nesting < 128 →
      d.floatFree = true → Answers request s (Value.ofDoc d) →
      serde.fromSlice payload = .ok (Value.ofDoc d) ∧
      (Forwards serde request s (Value.ofDoc d) ↔ s.toGuest.pending = false) ∧
      (s.toGuest.pending = true →
        acceptReply serde request s (Value.ofDoc d) [] = .exit (.error backpressure) [])) := by
  constructor
  · intro payload v r _ hparse hread hvalid hfloat
    exact delivers_iff hs hc hread hvalid (hc.limit payload v hparse) hfloat
  · intro payload d request s hfits htext hnesting hfloat hanswers
    exact ⟨hs.parses payload d htext hnesting,
      forwards_iff hs hc hfits htext hnesting hfloat hanswers⟩

/-! ## A reply that meets another frame -/

open Supervisor.Capability (nothing sampleCall sampleReply)

def eventFrame : Bytes := Framing.frame (SerdeJson.reference.toVec sampleCall)

def replyFrame : Bytes := Framing.frame (SerdeJson.reference.toVec sampleReply)

/-- One iteration in which the host takes what there is for it. -/
def turn (host : ReadOutcome) (room : WriteOutcome) (guest : ReadOutcome) :
    List Supervisor.Answer :=
  [.clock false, .resident none, .read host, .write room, .write (.room CHUNK), .read guest,
    .waited (.ok none), .polled (.ok ())]

/-- The guest takes so much of its request and no more, and calls; the host gets the call and
answers, and the loop has read the length of the answer. -/
def callRun (room : WriteOutcome) : List Supervisor.Answer :=
  let full : WriteOutcome := .failed ⟨.wouldBlock, ""⟩
  turn nothing room (.data eventFrame) ++ turn nothing full (.data (eventFrame.drop 4)) ++
    turn nothing full nothing ++ turn (.data replyFrame) full nothing ++
    [.clock false, .resident none]

def lastRead : ReadOutcome := .data (replyFrame.drop 4)

/-- The loop is about to read the end of the reply to its outstanding call. -/
structure AtReply (s : Loop) : Prop where
  phase : s.phase = .host
  pending : s.pendingSequence = some 1
  reply : (s.host.receive SerdeJson.reference lastRead).result = .ok (some sampleReply)

instance (s : Loop) : Decidable (AtReply s) :=
  decidable_of_iff (s.phase = .host ∧ s.pendingSequence = some 1 ∧
    (s.host.receive SerdeJson.reference lastRead).result = .ok (some sampleReply))
    ⟨fun ⟨h, i, j⟩ => ⟨h, i, j⟩, fun h => ⟨h.phase, h.pending, h.reply⟩⟩

theorem AtReply.answers {s : Loop} (h : AtReply s) :
    Answers Request.sample s (Value.ofDoc sampleReply.doc) := by
  rw [Value.ofDoc_doc]
  exact ⟨by decide, by decide, 1, h.pending, by decide⟩

theorem reaches_reply {room : WriteOutcome} {busy : Bool}
    (h : ((Supervisor.machine SerdeJson.reference Request.sample).follow
      { toGuest := Supervisor.fresh SerdeJson.reference Request.sample.toValue }
      [.enqueued .guest Request.sample.toValue] (callRun room)).map (fun reached =>
        (decide (AtReply reached.1), reached.1.toGuest.pending)) = some (true, busy)) :
    ∃ s history, (Supervisor.machine SerdeJson.reference Request.sample).Reaches s history ∧
      AtReply s ∧ s.toGuest.pending = busy := by
  have hstart : (Supervisor.machine SerdeJson.reference Request.sample).Reaches
      { toGuest := Supervisor.fresh SerdeJson.reference Request.sample.toValue }
      [.enqueued .guest Request.sample.toValue] :=
    .start ⟨Supervisor.enter_of_fits (by decide) (by decide +kernel), rfl⟩
  obtain ⟨⟨s, history⟩, hrun, hfacts⟩ := Option.map_eq_some_iff.mp h
  obtain ⟨hat, hbusy⟩ := Prod.mk.inj hfacts
  exact ⟨s, history, hstart.follow hrun, of_decide_eq_true hat, hbusy⟩

theorem sampleReply_fits : Framing.Fits MAX_FRAME (compact.render sampleReply.doc) := by
  constructor <;> decide

theorem sampleReply_text : Text (compact.render sampleReply.doc) sampleReply.doc :=
  (compact_lawful.element (by decide)).text

theorem hop_delivers_sample : Delivers SerdeJson.reference Request.sample ∧
    ∃ s history, (Supervisor.machine SerdeJson.reference Request.sample).Reaches s history ∧
      Answers Request.sample s sampleReply ∧
      Forwards SerdeJson.reference Request.sample s sampleReply := by
  obtain ⟨hrequest, hreply⟩ := hop_delivers SerdeJson.reference SerdeJson.reference_standard
    SerdeJson.reference_compact
  constructor
  · have hfits : Framing.Fits MAX_FRAME (SerdeJson.reference.toVec Request.sample.toValue) := by
      constructor <;> decide +kernel
    have hread := hrequest _ Request.sample.toValue Request.sample hfits (by decide +kernel)
      (by decide) (by decide) (by decide)
    exact hread.1.mpr (by decide +kernel)
  · obtain ⟨s, history, hreach, hat, hidle⟩ :=
      @reaches_reply (.room CHUNK) false (by decide +kernel)
    have hforwards := (hreply _ sampleReply.doc Request.sample s sampleReply_fits sampleReply_text
      (by decide) (by decide) hat.answers).2.1.mpr hidle
    have hanswers := hat.answers
    rw [Value.ofDoc_doc] at hforwards hanswers
    exact ⟨s, history, hreach, hanswers, hforwards⟩

/-- An accepted reply ends the loop where bytes for the guest are pending. -/
theorem step_backpressure {request : Request} {s : Loop} {outcome : ReadOutcome} {v : Value}
    (hphase : s.phase = .host) (hread : (s.host.receive serde outcome).result = .ok (some v))
    (hanswers : Answers request s v) (hbusy : s.toGuest.pending = true) :
    ∃ effects, Supervisor.step serde request s (.read outcome) =
      some (.exit (.error backpressure) effects) := by
  have hloop : Answers request { s with host := (s.host.receive serde outcome).reader } v :=
    ⟨hanswers.identity, hanswers.kind, hanswers.outstanding⟩
  have hfull : s.toGuest.enqueue serde v = (s.toGuest, .error backpressure) := by
    rw [Writer.enqueue, if_pos hbusy]
  have hstep : Supervisor.step serde request s (.read outcome) =
      some (Supervisor.hostPhase serde request s outcome) := by
    rw [Supervisor.step.eq_def, hphase]
  have hexit : Supervisor.hostPhase serde request s outcome = .exit (.error backpressure)
      [.took .host (s.host.receive serde outcome).consumed, .received .host v] := by
    rw [Supervisor.hostPhase, hread]
    dsimp only
    rw [acceptReply_answers serde hloop, hfull]
  exact ⟨_, hstep.trans (congrArg some hexit)⟩

/-- The guest has taken four bytes of its request when the reply to its call is read. -/
theorem reply_refused : ∃ s history payload effects,
    (Supervisor.machine SerdeJson.reference Request.sample).Reaches s history ∧
    Framing.Fits MAX_FRAME payload ∧ SerdeJson.reference.fromSlice payload = .ok sampleReply ∧
    sampleReply.doc.floatFree = true ∧ Answers Request.sample s sampleReply ∧
    ¬ Forwards SerdeJson.reference Request.sample s sampleReply ∧
    Supervisor.step SerdeJson.reference Request.sample s (.read lastRead) =
      some (.exit (.error backpressure) effects) := by
  obtain ⟨s, history, hreach, hat, hbusy⟩ := @reaches_reply (.room 4) true (by decide +kernel)
  have hiff := (forwards_iff SerdeJson.reference_standard SerdeJson.reference_compact
    sampleReply_fits sampleReply_text (by decide) (by decide) hat.answers).1
  have hback := SerdeJson.reference_standard.parses _ _ sampleReply_text (by decide)
  have hanswers := hat.answers
  rw [Value.ofDoc_doc] at hiff hback hanswers
  obtain ⟨effects, hstep⟩ := step_backpressure hat.phase hat.reply hanswers hbusy
  have hnot : ¬ Forwards SerdeJson.reference Request.sample s sampleReply := by
    rw [hiff, hbusy]
    exact Bool.noConfusion
  exact ⟨s, history, _, effects, hreach, sampleReply_fits, hback, by decide, hanswers, hnot, hstep⟩

/-! ## A request of the greatest size -/

def bulkyMembers (s : String) : List (String × Doc) :=
  [("execution_id", .string "e"), ("globals", .object [("ctx", .string s)]),
    ("profile", .string PROFILE), ("protocol", .string PROTOCOL), ("source", .string "1")]

theorem canonical_bulky (s : String) : (Doc.object (bulkyMembers s)).canonical = true := by
  rw [Doc.canonical_object]
  constructor
  · have hsorted : List.Pairwise (· < ·)
        ["execution_id", "globals", "profile", "protocol", "source"] := by decide
    exact List.pairwise_map.mp hsorted
  · simp [bulkyMembers, Doc.canonical, Doc.every, Doc.everyEntry, Doc.isMap, SortedMap.Sorted]

/-- A request with one large global and none of the optional fields. -/
def bulky (s : String) : Value := ⟨.object (bulkyMembers s), canonical_bulky s⟩

def bulkyRequest (s : String) : Request where
  protocol := PROTOCOL
  profile := PROFILE
  executionId := "e"
  source := "1"
  filename := RubyEngine.filename
  validateOnly := false
  globals := Value.ofDoc (.object [("ctx", .string s)])
  catalog := []
  limits := Limits.default

theorem bulky_read (s : String) : Request.ofValue (bulky s) = some (bulkyRequest s) := rfl

theorem bulky_valid (s : String) : (bulkyRequest s).validate = .ok () := by
  rw [Request.validate_iff]
  constructor
  · rfl
  · rfl
  · exact (by decide : "e" ≠ "" ∧ (utf8 "e").length ≤ 128)
  · exact (by decide : Limits.default.exceeds = false)
  · exact (by decide : (utf8 "1").length ≤ Limits.default.sourceBytes ∧ '\x00' ∉ "1".toList)
  · exact (by decide : (utf8 RubyEngine.filename).length ≤ 128 ∧
      (utf8 RubyEngine.filename).all isNameByte = true)
  · simp [bulkyRequest, Value.ofDoc, Doc.canon, Doc.canonEntries, SortedMap.ofList,
      SortedMap.insert, onlyCtx]
  · exact (by decide : 0 ≤ 50000)
  · simp [bulkyRequest]

theorem bulky_growth (s : String) : requestGrowth (bulky s).doc = 230 := by
  simp only [requestGrowth, growth, bulky, bulkyMembers, structFields, Request.fields,
    List.map_cons, List.map_nil, listed]
  simp [lookup, requestDefaults, member]
  decide +kernel

theorem bulky_length (s : String) :
    (compact.render (bulky s).doc).length = (compact.quote s).length + 111 := by
  have hctx : (compact.quote "ctx").length = 5 := by decide
  have hglobals : (compact.render (.object [("ctx", .string s)])).length =
      (compact.quote s).length + 8 := by
    rw [Json.Style.length_object (by simp)]
    simp only [List.map_cons, List.map_nil, List.sum_cons, List.sum_nil, Json.Style.memberSize,
      hctx, Json.Style.render]
    omega
  have hkey : (compact.quote "globals").length = 9 := by decide
  have hid : compact.memberSize ("execution_id", .string "e") = 19 := by decide
  have hprofile : compact.memberSize ("profile", .string PROFILE) = 32 := by decide
  have hprotocol : compact.memberSize ("protocol", .string PROTOCOL) = 27 := by decide
  have hsource : compact.memberSize ("source", .string "1") = 13 := by decide
  show (compact.render (.object (bulkyMembers s))).length = _
  rw [Json.Style.length_object (by simp [bulkyMembers])]
  simp only [bulkyMembers, List.map_cons, List.map_nil, List.sum_cons, List.sum_nil, hid, hprofile,
    hprotocol, hsource]
  simp only [Json.Style.memberSize, hglobals, hkey]
  omega

/-- A text of `n` letters. -/
def letters (n : Nat) : String := String.ofList (List.replicate n 'a')

theorem length_letters (n : Nat) : (compact.quote (letters n)).length = n + 2 := by
  have hone : compact.spell 'a' = [0x61] := by decide
  simp only [Json.Style.quote, letters, String.toList_ofList, List.flatMap_replicate, hone,
    List.length_append, List.length_cons, List.length_nil]
  simp

theorem bulky_refuses {s : String} (h : (compact.quote s).length + 111 = MAX_FRAME) :
    ∃ payload v r, payload.length = MAX_FRAME ∧
    SerdeJson.reference.fromSlice payload = .ok v ∧ Request.ofValue v = some r ∧
    r.validate = .ok () ∧ r.globals.doc.floatFree = true ∧
    ¬ Delivers SerdeJson.reference r ∧
    enter SerdeJson.reference r = .error "Frame size limit" := by
  have hfloat : (bulky s).doc.floatFree = true := by
    simp [bulky, bulkyMembers, Doc.floatFree, Doc.every, Doc.everyEntry, Doc.isFloat]
  have hnesting : (bulky s).doc.nesting < 128 := by
    simp [bulky, bulkyMembers, Doc.nesting, Doc.nestingEntries]
  have hglobals : (bulkyRequest s).globals.doc.floatFree = true := by
    refine Doc.floatFree_canon ?_
    simp [Doc.floatFree, Doc.every, Doc.everyEntry, Doc.isFloat]
  have hlength : (compact.render (bulky s).doc).length = MAX_FRAME := by
    rw [bulky_length, h]
  obtain ⟨hiff, hrefused⟩ := delivers_iff SerdeJson.reference_standard
    SerdeJson.reference_compact (bulky_read s) (bulky_valid s) hnesting hglobals
  rw [hlength, bulky_growth] at hiff hrefused
  have hback := SerdeJson.Compact.back SerdeJson.reference_standard SerdeJson.reference_compact
    (v := bulky s) ⟨hfloat, hnesting⟩
  rw [SerdeJson.reference_compact.prints _ hfloat] at hback
  refine ⟨compact.render (bulky s).doc, bulky s, bulkyRequest s, hlength, hback, bulky_read s,
    bulky_valid s, hglobals, ?_, hrefused (Nat.lt_add_of_pos_right (by decide))⟩
  rw [hiff]
  exact Nat.not_le.mpr (Nat.lt_add_of_pos_right (by decide))

/-- The request of the greatest size is admitted, and does not get through to the guest. -/
theorem bulky_refused : ∃ payload v r, payload.length = MAX_FRAME ∧
    SerdeJson.reference.fromSlice payload = .ok v ∧ Request.ofValue v = some r ∧
    r.validate = .ok () ∧ r.globals.doc.floatFree = true ∧
    ¬ Delivers SerdeJson.reference r ∧
    enter SerdeJson.reference r = .error "Frame size limit" := by
  have hmax : 113 ≤ MAX_FRAME := by decide
  have hlength : ∀ n, n + 113 = MAX_FRAME → (compact.quote (letters n)).length + 111 = MAX_FRAME := by
    intro n hn
    rw [length_letters]
    exact hn
  exact bulky_refuses (hlength (MAX_FRAME - 113) (Nat.sub_add_cancel hmax))

/-- Neither half holds at every size and at every moment: a request of the greatest size does not
get through to the guest, and a reply that meets an unfinished frame does not either. -/
theorem hop_refuses :
    (∃ payload v r, payload.length = MAX_FRAME ∧
      SerdeJson.reference.fromSlice payload = .ok v ∧ Request.ofValue v = some r ∧
      r.validate = .ok () ∧ r.globals.doc.floatFree = true ∧
      ¬ Delivers SerdeJson.reference r ∧
      enter SerdeJson.reference r = .error "Frame size limit") ∧
    ∃ s history payload effects,
      (Supervisor.machine SerdeJson.reference Request.sample).Reaches s history ∧
      Framing.Fits MAX_FRAME payload ∧ SerdeJson.reference.fromSlice payload = .ok sampleReply ∧
      sampleReply.doc.floatFree = true ∧ Answers Request.sample s sampleReply ∧
      ¬ Forwards SerdeJson.reference Request.sample s sampleReply ∧
      Supervisor.step SerdeJson.reference Request.sample s (.read lastRead) =
        some (.exit (.error backpressure) effects) :=
  ⟨bulky_refused, reply_refused⟩

end RubyEngine.Delivery
