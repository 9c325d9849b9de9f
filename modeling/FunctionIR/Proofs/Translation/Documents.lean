import FunctionIR.Proofs.Translation.Relining
import FunctionIR.Translation.Export

/-!
# Exported functions on other lines

An exported function tells lines in two places: a function its own, and a generic
node the line of the node that it comes from.  Which of its members is a line can
be seen from the first name of an object (`Json.lineKey`), since the object of a
generic node starts with a member of a name of its own, whatever its fields are
called.  So lines can be changed in a document (`Json.onLines`), and a fragment on
other lines is exported to the document of the fragment on other lines
(`toJson_onLines`).
-/

namespace FunctionIR

namespace Json

/-- The name of the member that is a line, in an object with these members. -/
def lineKey : List (String × Json) → Option String
  | [] => none
  | (first, _) :: _ =>
    if first = "_type" then some "line"
    else if first = "id" then some "lineno"
    else none

/-- Another line in the place of a line. -/
def relined (f : Nat → Nat) : Json → Json
  | .number (.integer line) => .number (.integer (f line.toNat))
  | other => other

mutual

/-- The document of a fragment with other lines. -/
def onLines (f : Nat → Nat) : Json → Json
  | .array items => .array (onLinesItems f items)
  | .object members => .object (onLinesMembers f (lineKey members) members)
  | .null => .null
  | .bool value => .bool value
  | .number value => .number value
  | .string value => .string value

/-- The documents of fragments with other lines. -/
def onLinesItems (f : Nat → Nat) : List Json → List Json
  | [] => []
  | item :: rest => onLines f item :: onLinesItems f rest

/-- The members of an object with other lines, where a line is told by its name. -/
def onLinesMembers (f : Nat → Nat) (line : Option String) :
    List (String × Json) → List (String × Json)
  | [] => []
  | (name, value) :: rest =>
    (name, if line = some name then relined f value else onLines f value) ::
      onLinesMembers f line rest

end

end Json

namespace Fragment

open Exchange (ofCount)

variable {f : Nat → Nat}

/-- A count has no lines. -/
theorem onLines_ofCount (n : Nat) : (ofCount n).onLines f = ofCount n := by
  rw [ofCount, Json.onLines]

theorem relined_ofCount (line : Nat) : (ofCount line).relined f = ofCount (f line) := rfl

/-- A scalar has no lines. -/
theorem onLines_exportScalar (s : Scalar) :
    (Exchange.exportScalar s).onLines f = Exchange.exportScalar s := by
  cases s <;> rw [Exchange.exportScalar, Json.onLines]

/-- A leaf has no lines. -/
theorem onLines_exportLeaf (s : Scalar) : (exportLeaf s).onLines f = exportLeaf s := by
  unfold exportLeaf
  split
  · split
    · exact onLines_exportScalar _
    · rw [Json.onLines]
  · exact onLines_exportScalar s

/-- The member that tells where a generic node comes from tells its line. -/
theorem originOf_onLines (syntaxIds : Bool) (id : Nat) (origin : Head) :
    originOf syntaxIds id (origin.onLines f) = (originOf syntaxIds id origin).onLines f := by
  obtain ⟨number, kind, location, span⟩ := origin
  cases syntaxIds <;> cases location <;>
    simp [originOf, Head.onLines, Location.onLines, Json.onLines, Json.onLinesMembers, Json.lineKey,
      onLines_ofCount, relined_ofCount]

/-- Members are put among others on other lines as they are put among these. -/
theorem onLinesMembers_set (name : String) (value : Json) (members : List (String × Json)) :
    Members.set name (value.onLines f) (Json.onLinesMembers f none members) =
      Json.onLinesMembers f none (Members.set name value members) := by
  induction members with
  | nil =>
      rw [Members.set, Json.onLinesMembers, Json.onLinesMembers, Json.onLinesMembers, Members.set,
        if_neg (by simp)]
  | cons member rest ih =>
      obtain ⟨key, old⟩ := member
      rw [Members.set, Json.onLinesMembers, if_neg (by simp), Members.set]
      by_cases hkey : key = name
      · rw [if_pos hkey, if_pos hkey, Json.onLinesMembers, if_neg (by simp)]
      · rw [if_neg hkey, if_neg hkey, Json.onLinesMembers, if_neg (by simp), ih]

/-- The first name stays the first, whatever is put among the members. -/
theorem lineKey_toJsonFields (syntaxIds : Bool) (first : String) (value : Json)
    (rest : List (String × Json)) (fields : List (String × Fragment)) :
    Json.lineKey (toJsonFields syntaxIds ((first, value) :: rest) fields) =
      Json.lineKey ((first, value) :: rest) := by
  induction fields generalizing value rest with
  | nil => rw [toJsonFields]
  | cons field fields ih =>
      obtain ⟨name, part⟩ := field
      rw [toJsonFields, Members.set]
      by_cases hname : first = name
      · rw [if_pos hname, ih]
        rfl
      · rw [if_neg hname, ih]
        rfl

mutual

/-- **A fragment on other lines** is exported to its document on other lines. -/
theorem toJson_onLines (syntaxIds : Bool) : (fragment : Fragment) →
    (fragment.onLines f).toJson syntaxIds = (fragment.toJson syntaxIds).onLines f
  | .function head decorators arguments returns body => by
      rw [onLines, toJson, toJson, toJson_onLines syntaxIds decorators,
        toJson_onLines syntaxIds arguments, toJson_onLines syntaxIds returns,
        toJsonItems_onLines syntaxIds body]
      simp [FunctionHead.onLines, Json.onLines, Json.onLinesMembers, Json.lineKey, onLines_ofCount,
        relined_ofCount]
  | .node id origin fields => by
      have hfirst : Json.onLinesMembers f none [("node", originOf syntaxIds id origin)] =
          [("node", originOf syntaxIds id (origin.onLines f))] := by
        rw [Json.onLinesMembers, Json.onLinesMembers, if_neg (by simp), originOf_onLines]
      have hkey : Json.lineKey [("node", originOf syntaxIds id origin)] = none := by
        simp [Json.lineKey]
      rw [onLines, toJson, toJson, Json.onLines, lineKey_toJsonFields, hkey, ← hfirst,
        toJsonFields_onLines syntaxIds _ fields]
  | .list items => by
      rw [onLines, toJson, toJson, Json.onLines, toJsonItems_onLines syntaxIds items]
  | .scalar s => by
      rw [onLines, toJson, onLines_exportLeaf]

theorem toJsonItems_onLines (syntaxIds : Bool) : (items : List Fragment) →
    toJsonItems syntaxIds (onLinesItems f items) =
      Json.onLinesItems f (toJsonItems syntaxIds items)
  | [] => by rw [onLinesItems, toJsonItems, Json.onLinesItems]
  | item :: rest => by
      rw [onLinesItems, toJsonItems, toJsonItems, Json.onLinesItems, toJson_onLines syntaxIds item,
        toJsonItems_onLines syntaxIds rest]

theorem toJsonFields_onLines (syntaxIds : Bool) (members : List (String × Json)) :
    (fields : List (String × Fragment)) →
    toJsonFields syntaxIds (Json.onLinesMembers f none members) (onLinesFields f fields) =
      Json.onLinesMembers f none (toJsonFields syntaxIds members fields)
  | [] => by rw [onLinesFields, toJsonFields, toJsonFields]
  | (name, value) :: rest => by
      rw [onLinesFields, toJsonFields, toJsonFields, toJson_onLines syntaxIds value,
        onLinesMembers_set, toJsonFields_onLines syntaxIds _ rest]

end

end Fragment

end FunctionIR
