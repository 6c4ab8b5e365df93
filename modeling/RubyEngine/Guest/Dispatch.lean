import RubyEngine.Guest.TreeDecode
import RubyEngine.Guest.HostCall

/-!
# Capability paths

A chain `app.s1.s2` is one method call a segment. Each call extends the path that
it stands on and then dispatches it, goes on from it or reports it unknown, by two
scans over the catalog. `app.call` takes the whole path at once.
-/
namespace RubyEngine.Guest

open Json

/-! ## The catalog of the guest -/

def pathsOf (request : Request) : List Bytes := request.catalog.map utf8

/-- The catalog as the C code rebuilds it, an array of strings. -/
theorem catalog_decoded {request : Request} {nodes : List Node}
    (h : Tree.new (Value.array (request.catalog.map Value.string)).doc = .ok nodes) :
    decode nodes 0 0 false = .ok (.array ((pathsOf request).map .string), nodes.length) := by
  rw [decode_new h, Value.array, Ruby.ofDoc, pathsOf]
  have hitems : ∀ paths : List String,
      Ruby.ofItems false ((paths.map Value.string).map Value.doc) =
        (paths.map utf8).map Ruby.string := by
    intro paths
    induction paths with
    | nil => rfl
    | cons path rest ih =>
      simp only [List.map_cons, Ruby.ofItems, ih]
      rfl
  rw [hitems]

/-! ## Callbacks -/

/-- One call of `ruby_host_call`. -/
structure Callback where
  kind : Kind
  path : Bytes
  json : Bytes
  deriving DecidableEq

section

variable (heap : Heap) (limit : Nat)

/-- `encode` on the new array that holds the arguments. -/
def encodeArray (items : List MrbValue) : Except Exception Bytes := do
  let output ← append limit [] [Ascii.openBracket]
  let output ← encodeItems limit (encodeRoom heap limit 64) true output items
  append limit output [Ascii.closeBracket]

theorem encodeArray_eq {address : Nat} {items : List MrbValue}
    (h : heap address = .array items) :
    encode heap limit [] (.object address) 0 = encodeArray heap limit items := by
  show (do
    let value ← unwrap heap (.object address)
    encodeValue limit (encodeRoom heap limit 64) heap [] value) = _
  simp only [unwrap, h]
  show encodeValue limit (encodeRoom heap limit 64) heap [] (.object address) = _
  simp only [encodeValue, h]
  rfl

/-- `exchange` up to `ruby_host_call`, on the encoded arguments. -/
def exchange (kind : Kind) (path : Bytes) (args : Except Exception Bytes) :
    Except Exception Callback := do
  let json ← args
  if 0 ∈ path then .error .nullByte else .ok { kind, path, json }

def exchangeCall (path : Bytes) (args : List MrbValue) : Except Exception Callback :=
  exchange .call path (encodeArray heap limit args)

def exchangeUnknown (path : Bytes) : Except Exception Callback :=
  exchange .unknown path (encode heap limit [] .nil 0)

/-! ## `app_dispatch` and `app_call` -/

def dot : UInt8 := 0x2e

/-- The path of a segment below another path. -/
def extend (before name : Bytes) : Bytes :=
  if before = [] then name else before ++ dot :: name

/-- A catalog path goes on below this one. -/
def isNamespace (catalog : List Bytes) (path : Bytes) : Bool :=
  catalog.any (fun candidate => decide (path.length < candidate.length) &&
    decide (candidate.take path.length = path) && decide (candidate[path.length]? = some dot))

inductive Dispatched where
  | exchanged (sent : Except Exception Callback)
  | path (path : Bytes)
  deriving DecidableEq

def appDispatch (catalog : List Bytes) (before name : Bytes) (args : List MrbValue) : Dispatched :=
  let path := extend before name
  if path ∈ catalog then .exchanged (exchangeCall heap limit path args)
  else if args = [] ∧ isNamespace catalog path then .path path
  else .exchanged (exchangeUnknown heap limit path)

def appCall (catalog : List Bytes) (path : Bytes) (args : List MrbValue) :
    Except Exception Callback :=
  if path ∈ catalog then exchangeCall heap limit path args else exchangeUnknown heap limit path

/-! ## Chains -/

/-- How far a chain comes: to its first exchange, whose result gets the rest of the
segments, or to a path. -/
inductive Reached where
  | exchanged (sent : Except Exception Callback) (rest : List Bytes)
  | path (path : Bytes)
  deriving DecidableEq

/-- The segments from a path on, one `method_missing` each. The arguments are those of the
last one. -/
def chain (catalog : List Bytes) (before : Bytes) : List Bytes → List MrbValue → Reached
  | [], _ => .path before
  | name :: rest, args =>
      match appDispatch heap limit catalog before name (if rest = [] then args else []) with
      | .exchanged sent => .exchanged sent rest
      | .path path => chain catalog path rest args

def Exception.unavailable : Exception :=
  .builtin "RuntimeError" "app capabilities are unavailable in this profile"

/-- `app.s1.s2...sn(args)` -/
def evalApp (catalog : List Bytes) (segments : List Bytes) (args : List MrbValue) : Reached :=
  if catalog = [] then .exchanged (.error .unavailable) segments
  else chain heap limit catalog [] segments args

end

/-- The path of some segments below another path. -/
def below (before : Bytes) (segments : List Bytes) : Bytes := segments.foldl extend before

def dotted (segments : List Bytes) : Bytes := below [] segments

/-! ## Paths -/

theorem below_cons (before name : Bytes) (rest : List Bytes) :
    below before (name :: rest) = below (extend before name) rest := rfl

theorem extend_ne_nil (before : Bytes) {name : Bytes} (h : name ≠ []) : extend before name ≠ [] := by
  unfold extend
  split
  · exact h
  · simp

/-- More segments give a path below. -/
theorem below_of_ne_nil {before : Bytes} (h : before ≠ []) {segments : List Bytes}
    (hne : segments ≠ []) : ∃ tail, below before segments = before ++ dot :: tail := by
  induction segments generalizing before with
  | nil => exact absurd rfl hne
  | cons name rest ih =>
    have hextend : extend before name = before ++ dot :: name := if_neg h
    rw [below_cons, hextend]
    by_cases hrest : rest = []
    · subst hrest
      exact ⟨name, rfl⟩
    · have hnonempty : before ++ dot :: name ≠ [] := by simp
      obtain ⟨tail, htail⟩ := ih hnonempty hrest
      exact ⟨name ++ dot :: tail, by rw [htail]; simp⟩

theorem isNamespace_iff {catalog : List Bytes} {path : Bytes} :
    isNamespace catalog path = true ↔ ∃ tail, path ++ dot :: tail ∈ catalog := by
  simp only [isNamespace, List.any_eq_true, Bool.and_eq_true, decide_eq_true_eq]
  constructor
  · rintro ⟨candidate, hmem, ⟨hlen, htake⟩, hdot⟩
    refine ⟨candidate.drop (path.length + 1), ?_⟩
    have hsplit : candidate = path ++ dot :: candidate.drop (path.length + 1) := by
      conv_lhs => rw [← List.take_append_drop path.length candidate, htake]
      rw [List.getElem?_eq_getElem hlen] at hdot
      rw [List.drop_eq_getElem_cons hlen, Option.some.inj hdot]
    rwa [← hsplit]
  · rintro ⟨tail, hmem⟩
    refine ⟨_, hmem, ⟨by simp, by simp⟩, by simp⟩

/-! ## Where a chain comes to -/

variable {heap : Heap} {limit : Nat} {catalog : List Bytes}

theorem exchange_kind {kind : Kind} {path : Bytes} {args : Except Exception Bytes}
    {callback : Callback} (h : exchange kind path args = .ok callback) : callback.kind = kind := by
  cases args with
  | error e => cases h
  | ok json =>
    change (if 0 ∈ path then Except.error Exception.nullByte else Except.ok _) = _ at h
    split at h
    · cases h
    · rw [← Except.ok.inj h]

theorem appDispatch_call {before name : Bytes} (h : extend before name ∈ catalog)
    (args : List MrbValue) : appDispatch heap limit catalog before name args =
      .exchanged (exchangeCall heap limit (extend before name) args) := by
  rw [appDispatch, if_pos h]

/-- Between two catalog paths a chain goes on. -/
theorem appDispatch_path {before name tail : Bytes} (h : extend before name ∉ catalog)
    (hbelow : extend before name ++ dot :: tail ∈ catalog) :
    appDispatch heap limit catalog before name [] = .path (extend before name) := by
  have hspace := isNamespace_iff.mpr ⟨tail, hbelow⟩
  rw [appDispatch, if_neg h, if_pos ⟨rfl, hspace⟩]

theorem appDispatch_missing {before name : Bytes} (h : extend before name ∉ catalog)
    (args : List MrbValue) :
    appDispatch heap limit catalog before name args =
      .exchanged (exchangeUnknown heap limit (extend before name)) ∨
    appDispatch heap limit catalog before name args = .path (extend before name) := by
  rw [appDispatch, if_neg h]
  split
  · exact Or.inr rfl
  · exact Or.inl rfl

/-- A chain dispatches the shortest of its paths that is in the catalog. The arguments go
with it if it is the whole chain. -/
theorem chain_first {before : Bytes} {segments : List Bytes} {k : Nat} (hsegments : ∀ s ∈ segments, s ≠ [])
    (hpos : 0 < k) (hk : k ≤ segments.length) (hmem : below before (segments.take k) ∈ catalog)
    (hfree : ∀ j, 0 < j → j < k → below before (segments.take j) ∉ catalog) (args : List MrbValue) :
    chain heap limit catalog before segments args =
      .exchanged (exchangeCall heap limit (below before (segments.take k))
        (if segments.drop k = [] then args else [])) (segments.drop k) := by
  induction k generalizing before segments with
  | zero => exact absurd hpos (Nat.lt_irrefl 0)
  | succ k ih =>
    cases segments with
    | nil => simp at hk
    | cons name rest =>
      rw [List.take_succ_cons, below_cons] at hmem ⊢
      rw [List.drop_succ_cons]
      rw [List.length_cons] at hk
      by_cases hzero : k = 0
      · subst hzero
        rw [chain, appDispatch_call hmem]
        rfl
      · have hfirst : extend before name ∉ catalog := by
          have h1 := hfree 1 (by omega) (by omega)
          rwa [List.take_succ_cons, List.take_zero] at h1
        have htake : rest.take k ≠ [] := by
          intro hnil
          have hlen := congrArg List.length hnil
          rw [List.length_take, List.length_nil] at hlen
          omega
        have hrest : rest ≠ [] := by
          rintro rfl
          exact htake (List.take_nil)
        obtain ⟨tail, htail⟩ := below_of_ne_nil
          (extend_ne_nil before (hsegments name (by simp))) htake
        rw [chain, if_neg hrest, appDispatch_path hfirst (htail ▸ hmem)]
        refine ih (fun s hs => hsegments s (List.mem_cons_of_mem _ hs)) (by omega) (by omega) hmem ?_
        intro j hj hjk
        have hnext := hfree (j + 1) (by omega) (by omega)
        rwa [List.take_succ_cons, below_cons] at hnext

/-- A chain without a catalog path in it calls nothing. -/
theorem chain_unknown {before : Bytes} {segments : List Bytes}
    (hfree : ∀ j, 0 < j → j ≤ segments.length → below before (segments.take j) ∉ catalog)
    (args : List MrbValue) :
    (∃ path, chain heap limit catalog before segments args = .path path) ∨
    ∃ path rest, chain heap limit catalog before segments args =
      .exchanged (exchangeUnknown heap limit path) rest := by
  induction segments generalizing before with
  | nil => exact Or.inl ⟨before, rfl⟩
  | cons name rest ih =>
    have hfirst : extend before name ∉ catalog := by
      have h1 := hfree 1 (by omega) (by simp)
      rwa [List.take_succ_cons, List.take_zero] at h1
    rw [chain]
    rcases appDispatch_missing hfirst (if rest = [] then args else []) with hstep | hstep
    · rw [hstep]
      exact Or.inr ⟨_, rest, rfl⟩
    · rw [hstep]
      refine ih ?_
      intro j hj hle
      have hnext := hfree (j + 1) (by omega) (by simpa using hle)
      rwa [List.take_succ_cons, below_cons] at hnext

/-! ## Catalogs of an admitted request -/

/-- No path of an admitted catalog has a null byte. -/
theorem catalog_clean {request : Request} (h : request.validate = .ok ()) :
    ∀ path ∈ pathsOf request, (0 : UInt8) ∉ path := by
  intro path hpath hzero
  obtain ⟨text, htext, rfl⟩ := List.mem_map.mp hpath
  have hname := ((Request.validate_iff.mp h).catalog text htext).2.2
  rw [List.all_eq_true] at hname
  exact absurd (hname 0 hzero) (by decide)

/-- What a call sends for a catalog path, if its arguments can be encoded. -/
theorem exchangeCall_ok {path : Bytes} (hpath : (0 : UInt8) ∉ path) {args : List MrbValue}
    {json : Bytes} (h : encodeArray heap limit args = .ok json) :
    exchangeCall heap limit path args = .ok { kind := .call, path, json } := by
  rw [exchangeCall, exchange, h]
  exact if_neg hpath

/-- Calls of the capabilities of an admitted request, by a chain of segments or by the
whole path. -/
theorem capability_paths (request : Request) (hv : request.validate = .ok ()) (heap : Heap)
    (segments : List Bytes) (hne : segments ≠ []) (hsegments : ∀ s ∈ segments, s ≠ [])
    (args : List MrbValue) :
    let catalog := pathsOf request
    let limit := request.limits.resultBytes
    (dotted segments ∈ catalog →
      (∀ j, 0 < j → j < segments.length → dotted (segments.take j) ∉ catalog) →
      evalApp heap limit catalog segments args =
          .exchanged (appCall heap limit catalog (dotted segments) args) [] ∧
        ∀ json, encodeArray heap limit args = .ok json →
          appCall heap limit catalog (dotted segments) args =
            .ok { kind := .call, path := dotted segments, json }) ∧
    (∀ k, 0 < k → k < segments.length → dotted (segments.take k) ∈ catalog →
      (∀ j, 0 < j → j < k → dotted (segments.take j) ∉ catalog) →
      evalApp heap limit catalog segments args =
        .exchanged (exchangeCall heap limit (dotted (segments.take k)) []) (segments.drop k)) ∧
    (∀ path ∉ catalog, appCall heap limit catalog path args = exchangeUnknown heap limit path) ∧
    ((∀ j, 0 < j → j ≤ segments.length → dotted (segments.take j) ∉ catalog) →
      ∀ callback rest, evalApp heap limit catalog segments args = .exchanged (.ok callback) rest →
        callback.kind = .unknown) := by
  intro catalog limit
  have hpos : 0 < segments.length := List.length_pos_iff.mpr hne
  have heval : ∀ path ∈ catalog, evalApp heap limit catalog segments args =
      chain heap limit catalog [] segments args := by
    intro path hpath
    rw [evalApp, if_neg (List.ne_nil_of_mem hpath)]
  refine ⟨?_, ?_, ?_, ?_⟩
  · intro hmem hfree
    have hwhole : below [] (segments.take segments.length) ∈ catalog := by
      rwa [List.take_length]
    have hcall : appCall heap limit catalog (dotted segments) args =
        exchangeCall heap limit (dotted segments) args := if_pos hmem
    refine ⟨?_, ?_⟩
    · rw [heval _ hmem, hcall, chain_first hsegments hpos (Nat.le_refl _) hwhole hfree,
        List.take_length, List.drop_length, if_pos rfl]
      rfl
    · intro json hjson
      rw [hcall]
      exact exchangeCall_ok (catalog_clean hv _ hmem) hjson
  · intro k hk hlt hmem hfree
    have hdrop : segments.drop k ≠ [] := by
      intro hnil
      rw [List.drop_eq_nil_iff] at hnil
      omega
    rw [heval _ hmem, chain_first hsegments hk hlt.le hmem hfree, if_neg hdrop]
    rfl
  · intro path hpath
    exact if_neg hpath
  · intro hfree callback rest hsent
    unfold evalApp at hsent
    split at hsent
    · cases hsent
    · rcases chain_unknown hfree args with ⟨path, hpath⟩ | ⟨path, rest', hunknown⟩
      · rw [hpath] at hsent
        cases hsent
      · rw [hunknown] at hsent
        have hok : exchangeUnknown heap limit path = .ok callback := (Reached.exchanged.inj hsent).1
        exact exchange_kind hok

/-! ## Overlapping paths -/

def cataloged (catalog : List String) : Request := { Request.sample with catalog }

/-- `app.a.b` -/
def chained : List Bytes := [utf8 "a", utf8 "b"]

theorem capability_paths_sample :
    evalApp (fun _ => .other) (1024 * 1024) (pathsOf (cataloged ["a.b"])) chained [] =
      .exchanged (.ok { kind := .call, path := utf8 "a.b", json := utf8 "[]" }) [] := by
  have hfree : ∀ j, 0 < j → j < chained.length →
      dotted (chained.take j) ∉ pathsOf (cataloged ["a.b"]) := by
    intro j hpos hlt
    have hlen : chained.length = 2 := rfl
    obtain rfl : j = 1 := by omega
    decide
  have hcall := (capability_paths (cataloged ["a.b"]) (by decide) (fun _ => .other) chained
    (by decide) (by decide) []).1 (by decide) hfree
  have hsent := hcall.2 (utf8 "[]") (by decide)
  exact hcall.1.trans (congrArg (Reached.exchanged · []) hsent)

/-- With `a` in the catalog the chain `app.a.b` calls `a`, and `app.call` still calls `a.b`. -/
theorem overlapping_paths :
    (cataloged ["a", "a.b"]).validate = .ok () ∧
    dotted chained ∈ pathsOf (cataloged ["a", "a.b"]) ∧
    evalApp (fun _ => .other) (1024 * 1024) (pathsOf (cataloged ["a", "a.b"])) chained [] =
      .exchanged (.ok { kind := .call, path := utf8 "a", json := utf8 "[]" }) [utf8 "b"] ∧
    appCall (fun _ => .other) (1024 * 1024) (pathsOf (cataloged ["a", "a.b"])) (dotted chained) [] =
      .ok { kind := .call, path := utf8 "a.b", json := utf8 "[]" } := by
  refine ⟨?_, ?_, ?_, ?_⟩ <;> decide

end RubyEngine.Guest
