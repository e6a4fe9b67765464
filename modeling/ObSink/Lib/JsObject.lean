import ObSink.Lib.TreeMap

/-! # JavaScript objects used as maps

A plain object has its own properties and inherits those of its prototype, which
is `Object.prototype` until the member `__proto__` is assigned. Reading by
index and `in` see what is inherited; an assignment to `__proto__` sets the
prototype and leaves no property behind.
-/

/-- What `{}` inherits. -/
def objectPrototype : List String :=
  ["constructor", "__defineGetter__", "__defineSetter__", "hasOwnProperty", "__lookupGetter__",
    "__lookupSetter__", "isPrototypeOf", "propertyIsEnumerable", "toString", "valueOf", "__proto__",
    "toLocaleString"]

/-- An object whose values are objects; `proto` is the value its prototype was
set to. -/
structure JsObject (α : Type) where
  own : Std.ExtTreeMap String α
  proto : Option α

namespace JsObject

variable {α : Type}

/-- `{}` -/
def empty : JsObject α := ⟨∅, none⟩

/-- A map that comes from JSON or from a structured clone. -/
def ofMap (entries : Std.ExtTreeMap String α) : JsObject α := ⟨entries, none⟩

/-- What is inherited, `fields` being the members of every value. -/
def inherits (fields : List String) (object : JsObject α) (key : String) : Bool :=
  objectPrototype.contains key || (object.proto.isSome && fields.contains key)

/-- `object[key]` -/
inductive Member (α : Type) where
  | undefined
  | own (value : α)
  | inherited

def get (fields : List String) (object : JsObject α) (key : String) : Member α :=
  match object.own[key]? with
  | some value => .own value
  | none => if object.inherits fields key then .inherited else .undefined

/-- `key in object` -/
def has (fields : List String) (object : JsObject α) (key : String) : Bool :=
  object.own.contains key || object.inherits fields key

/-- `object[key] = value` -/
def set (object : JsObject α) (key : String) (value : α) : JsObject α :=
  if key = "__proto__" ∧ object.own.contains key = false then { object with proto := some value }
  else { object with own := object.own.insert key value }

theorem proto_mem_objectPrototype : "__proto__" ∈ objectPrototype := by decide

theorem set_of_ne (object : JsObject α) {key : String} (hne : key ≠ "__proto__") (value : α) :
    object.set key value = { object with own := object.own.insert key value } :=
  if_neg fun hboth => hne hboth.1

/-- An assignment leaves the other properties alone. -/
theorem set_own_of_ne (object : JsObject α) {key other : String} (hne : key ≠ other) (value : α) :
    (object.set key value).own[other]? = object.own[other]? := by
  unfold set
  split
  next => rfl
  next => exact Std.ExtTreeMap.getElem?_insert_of_ne _ value hne

/-- No assignment makes `__proto__` a property. -/
theorem set_own_proto {object : JsObject α} (hnone : object.own["__proto__"]? = none) (key : String)
    (value : α) : (object.set key value).own["__proto__"]? = none := by
  by_cases hkey : key = "__proto__"
  · have hnot : object.own.contains key = false := by
      rw [Bool.eq_false_iff, ne_eq, Std.ExtTreeMap.contains_iff_mem, hkey,
        Std.ExtTreeMap.mem_iff_isSome_getElem?, hnone]
      simp
    rw [set, if_pos ⟨hkey, hnot⟩]
    exact hnone
  · rw [set_own_of_ne object hkey]
    exact hnone

theorem inherits_of_mem (fields : List String) (object : JsObject α) {key : String}
    (hkey : key ∈ objectPrototype) : object.inherits fields key = true := by
  simp [inherits, hkey]

end JsObject
