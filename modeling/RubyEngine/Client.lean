import RubyEngine.Json.Render
import RubyEngine.Protocol

/-!
# The log events in the PHP client

`json_decode` and `json_encode` as PHP documents them: objects are read into
property tables, and the default flags print ASCII only, with `/` escaped. The
client meters the text that it would print, not the one that it has read. Floats
are left out.
-/
namespace RubyEngine.Client

open Json (Doc Value Style)

/-! ## JSON in PHP -/

/-- The spelling of a character under the default flags. -/
def spell (c : Char) : Bytes :=
  if c = '"' then [Json.Ascii.backslash, Json.Ascii.quote]
  else if c = '\\' then [Json.Ascii.backslash, Json.Ascii.backslash]
  else if c = '/' then [Json.Ascii.backslash, 0x2f]
  else if c = '\x08' then [Json.Ascii.backslash, 0x62]
  else if c = '\x0c' then [Json.Ascii.backslash, 0x66]
  else if c = '\n' then [Json.Ascii.backslash, 0x6e]
  else if c = '\r' then [Json.Ascii.backslash, 0x72]
  else if c = '\t' then [Json.Ascii.backslash, 0x74]
  else if c.toNat < 0x20 ∨ 0x80 ≤ c.toNat then Json.charEscape c
  else String.utf8EncodeChar c

/-- `json_encode` without flags. -/
def encoder : Style where
  spell := spell
  float _ := []

/-- No property name begins with a NUL character. -/
def hasReadableNames : Doc → Bool
  | .object entries => entries.all (fun e => e.1.toList.head? ≠ some '\x00')
  | _ => true

/-- `json_decode` into objects does not throw. -/
def readable (d : Doc) : Bool := d.every hasReadableNames

theorem readable_object {entries : List (String × Doc)} :
    readable (.object entries) = true ↔
      ∀ e ∈ entries, e.1.toList.head? ≠ some '\x00' ∧ readable e.2 = true := by
  simp only [readable, Doc.every_object, hasReadableNames, List.all_eq_true,
    decide_eq_true_eq]
  exact ⟨fun h e he => ⟨h.1 e he, h.2 e he⟩, fun h => ⟨fun e he => (h e he).1, fun e he => (h e he).2⟩⟩

theorem readable_array {items : List Doc} :
    readable (.array items) = true ↔ ∀ d ∈ items, readable d = true := by
  simp [readable, hasReadableNames]

theorem readable_canon {d : Doc} (h : d.distinct = true) :
    readable d.canon = readable d := by
  rw [Bool.eq_iff_iff]
  induction d using Doc.induct with
  | null | bool | number | string => rfl
  | array items ih =>
    rw [Doc.distinct_array] at h
    rw [Doc.canon, readable_array, readable_array, Doc.canonItems_eq_map, List.forall_mem_map]
    exact forall₂_congr (fun d hd => ih d hd (h d hd))
  | object entries ih =>
    obtain ⟨hnodup, h⟩ := Doc.distinct_object.mp h
    have hperm := Doc.canonEntries_perm hnodup
    rw [Doc.canon, readable_object, readable_object]
    simp only [hperm.mem_iff, List.forall_mem_map]
    exact forall₂_congr (fun e he => and_congr_right (fun _ => ih e he (h e he)))

theorem readable_valueObject {entries : List (String × Value)}
    (h : (entries.map Prod.fst).Nodup) :
    readable (Value.object entries).doc = true ↔
      ∀ e ∈ entries, e.1.toList.head? ≠ some '\x00' ∧ readable e.2.doc = true := by
  have hnames : ((entries.map (fun e => (e.1, e.2.doc))).map Prod.fst).Nodup := by
    rwa [List.map_map]
  have hperm := SortedMap.ofList_perm hnames
  show readable (.object (SortedMap.ofList _)) = true ↔ _
  rw [readable_object]
  simp only [hperm.mem_iff, List.forall_mem_map]

/-! ## The log case of `Client::execute` -/

inductive Failure where
  | json
  | runtime (message : String)
  deriving DecidableEq

def Failure.budget : Failure := .runtime "Engine log budget exceeded."

structure Logs where
  bytes : Nat := 0
  values : List (List Doc) := []
  deriving DecidableEq

/-- One event with the kind `log`, from its frame to the end of the case. -/
def onLog (executionId : String) (logBytes : Nat) (logs : Logs) (event : Value) :
    Except Failure Logs :=
  if !readable event.doc then .error .json
  else if (event.index "protocol").asStr ≠ some PROTOCOL ∨
      (event.index "execution_id").asStr ≠ some executionId then
    .error (.runtime "Ruby engine identity/protocol mismatch.")
  else
    match event.index "values" with
    | .array items =>
        let bytes := logs.bytes + (encoder.render (.array items)).length
        if logBytes < bytes then .error .budget
        else .ok { bytes, values := logs.values ++ [items] }
    | _ => .error (.runtime "Malformed engine log.")

def onLogs (executionId : String) (logBytes : Nat) : Logs → List Value → Except Failure Logs
  | logs, [] => .ok logs
  | logs, event :: rest =>
      match onLog executionId logBytes logs event with
      | .error e => .error e
      | .ok logs => onLogs executionId logBytes logs rest

end RubyEngine.Client
