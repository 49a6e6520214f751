import BrokerForest.Pool.Kind
import BrokerForest.Text.Blank
/-!
# The order in which a search consults its pools

An order lists kinds of pools, none twice; pools of kinds that it does not list are never
consulted.  Its text has the tokens of the kinds, parted by commas or white space.

* `SearchOrder.ofKinds` — the order of a list of kinds, or the first kind that repeats;
* `SearchOrder.parse` — the order in a text, or why there is none;
* `SearchOrder.text` — an order's tokens with commas between them.
-/

namespace BrokerForest

/-- Why kinds or a text make no order. -/
inductive OrderError where
  | unknownKind (token : String)
  | repeated (kind : PoolKind)
deriving DecidableEq

namespace OrderError

/-- An error in words. -/
def message : OrderError → String
  | .unknownKind token => "unknown cache kind: " ++ token
  | .repeated kind => "cache kind listed twice: " ++ kind.token

end OrderError

/-- The kinds of pools that a search consults, in order. -/
structure SearchOrder where
  kinds : List PoolKind
  nodup : kinds.Nodup
deriving DecidableEq

namespace SearchOrder

/-- The order used where no other is asked for. -/
def standard : SearchOrder where
  kinds := [.regional, .upstream, .downstream, .minDegree, .busy, .global, .maxDegree]
  nodup := by decide

instance : Inhabited SearchOrder := ⟨standard⟩

/-- The first kind that is among those seen already or that repeats an earlier one. -/
def firstRepeat (seen : List PoolKind) : List PoolKind → Option PoolKind
  | [] => none
  | kind :: later => if kind ∈ seen then some kind else firstRepeat (kind :: seen) later

/-- Without a first repeat there is no repeat. -/
theorem nodup_of_firstRepeat_eq_none {kinds : List PoolKind} :
    ∀ {seen : List PoolKind}, firstRepeat seen kinds = none →
      kinds.Nodup ∧ ∀ kind ∈ kinds, kind ∉ seen := by
  induction kinds with
  | nil => simp
  | cons kind later ih =>
    intro seen h
    by_cases hk : kind ∈ seen
    · simp [firstRepeat, hk] at h
    · simp only [firstRepeat, hk, if_false] at h
      obtain ⟨hn, hs⟩ := ih h
      refine ⟨List.nodup_cons.2 ⟨fun hmem => hs kind hmem (by simp), hn⟩, ?_⟩
      intro other hother
      rcases List.mem_cons.1 hother with rfl | hmem
      · exact hk
      · exact fun hin => hs other hmem (by simp [hin])

/-- The order of a list of kinds. -/
def ofKinds (kinds : List PoolKind) : Except OrderError SearchOrder :=
  match h : firstRepeat [] kinds with
  | some kind => .error (.repeated kind)
  | none => .ok ⟨kinds, (nodup_of_firstRepeat_eq_none h).1⟩

/-- Whether a character parts two fields of a text. -/
def isSeparator (c : Char) : Bool := c == ',' || Text.isBlank c

/-- The fields of a text that follow a field's first characters `current`. -/
def fieldsAfter (current : List Char) : List Char → List String
  | [] => if current.isEmpty then [] else [String.ofList current]
  | c :: rest =>
    if isSeparator c then
      if current.isEmpty then fieldsAfter [] rest
      else String.ofList current :: fieldsAfter [] rest
    else fieldsAfter (current ++ [c]) rest

/-- The fields of a text: its longest runs of characters that part nothing. -/
def fields (text : String) : List String := fieldsAfter [] text.toList

/-- The kind that a field names. -/
def readKind (field : String) : Except OrderError PoolKind :=
  match PoolKind.ofToken? field with
  | some kind => .ok kind
  | none => .error (.unknownKind field)

/-- The kinds that fields name, or the first field that names none. -/
def readKinds : List String → Except OrderError (List PoolKind)
  | [] => .ok []
  | field :: rest =>
    match readKind field with
    | .error e => .error e
    | .ok kind =>
      match readKinds rest with
      | .error e => .error e
      | .ok kinds => .ok (kind :: kinds)

/-- The order in a text. -/
def parse (text : String) : Except OrderError SearchOrder :=
  match readKinds (fields text) with
  | .error e => .error e
  | .ok kinds => ofKinds kinds

/-- The text of an order. -/
def text (order : SearchOrder) : String := ",".intercalate (order.kinds.map PoolKind.token)

end SearchOrder

end BrokerForest
