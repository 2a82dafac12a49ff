import LibSeal.Data.CxxString
import LibSeal.Data.OrderedMap

/-!
# Events and their parameters

What the parsers extract from a message is an `Event`, a map of named parameters. A parameter is of
one of four types, and its accessors do not check which: a string is read as empty where there is
none, a byte block as a null pointer, and the length of a byte block as whatever the memory of the
object happens to hold (`CFault.uninitialized`).

A parameter is stored under its protocol's string followed by its name. The strings differ in their
first letters, so parameters of different protocols never share an entry (`paramKey_inj`).
-/

namespace LibSeal

open Bytes

/-- `Protocol` -/
inductive Protocol where
  | http
  | git
  | owncloud
  deriving DecidableEq

/-- `protocolStrings` -/
def protocolStrings : Protocol → Bytes
  | .http => ascii "http"
  | .git => ascii "git"
  | .owncloud => ascii "owncloud"

/-- The value of a parameter, with its `ParamType`. -/
inductive ParamValue where
  | string (value : Bytes)
  /-- The memory block that `value_bytes` points to, and `value_bytes_length`. -/
  | bytes (block : Bytes) (length : ℤ)
  | int (value : ℤ)
  | bool (value : Bool)
  deriving DecidableEq

/-- `class Param` -/
structure Param where
  protocol : Protocol
  name : Bytes
  value : ParamValue
  deriving DecidableEq

namespace Param

/-- `Param::getValueString` -/
def getValueString (p : Param) : Bytes :=
  match p.value with
  | .string value => value
  | _ => []

/-- `Param::getValueBytes`: the memory from the pointer on; `none` is a null pointer. -/
def getValueBytes (p : Param) : Option Bytes :=
  match p.value with
  | .bytes block _ => some block
  | _ => none

/-- `Param::getValueBytesLength` -/
def getValueBytesLength (p : Param) : Except CFault ℤ :=
  match p.value with
  | .bytes _ length => .ok length
  | _ => .error .uninitialized

end Param

/-- The key of a parameter. -/
def paramKey (protocol : Protocol) (name : Bytes) : Bytes := protocolStrings protocol ++ name

/-- **Parameters of different protocols do not share a key.** -/
theorem paramKey_inj {p q : Protocol} {m n : Bytes} :
    paramKey p m = paramKey q n ↔ p = q ∧ m = n := by
  constructor
  · intro h
    have hfirst : (protocolStrings p).head? = (protocolStrings q).head? := by
      have hhead := congrArg List.head? h
      have hne : ∀ r : Protocol, ∀ s : Bytes, (paramKey r s).head? = (protocolStrings r).head? := by
        rintro (- | - | -) s <;> rfl
      rwa [hne, hne] at hhead
    have hpq : p = q := by
      rcases p with - | - | - <;> rcases q with - | - | - <;>
        first | rfl | exact absurd hfirst (by decide)
    subst hpq
    exact ⟨rfl, List.append_cancel_left h⟩
  · rintro ⟨rfl, rfl⟩
    rfl

/-- `class Event` -/
abbrev Event := OrderedMap Bytes Param

namespace Event

/-- `Event::add` -/
def add (e : Event) (p : Param) : Event := e.insert (paramKey p.protocol p.name) p

/-- `Event::getParam` -/
def getParam (e : Event) (protocol : Protocol) (name : Bytes) : Option Param :=
  e.get? (paramKey protocol name)

/-- `Event::paramIs` -/
def paramIs (e : Event) (protocol : Protocol) (name value : Bytes) : Bool :=
  match e.getParam protocol name with
  | some p => p.getValueString == value
  | none => false

/-- `Event::paramContains` -/
def paramContains (e : Event) (protocol : Protocol) (name value : Bytes) : Bool :=
  match e.getParam protocol name with
  | some p => Bytes.contains p.getValueString value
  | none => false

/-- `Event::paramCnt` -/
def paramCnt (e : Event) : ℕ := e.toList.length

/-- An added parameter is found under its own name, and hides only what had that name. -/
theorem getParam_add (e : Event) (p : Param) (protocol : Protocol) (name : Bytes) :
    (e.add p).getParam protocol name =
      if p.protocol = protocol ∧ p.name = name then some p else e.getParam protocol name := by
  rw [getParam, add, OrderedMap.get?_insert]
  simp only [paramKey_inj]
  rfl

theorem getParam_add_self (e : Event) (p : Param) :
    (e.add p).getParam p.protocol p.name = some p := by
  rw [getParam_add, if_pos ⟨rfl, rfl⟩]

theorem getParam_add_of_ne (e : Event) (p : Param) {protocol : Protocol} {name : Bytes}
    (h : p.name ≠ name) : (e.add p).getParam protocol name = e.getParam protocol name := by
  rw [getParam_add, if_neg fun hp ↦ h hp.2]

theorem getParam_add_of_protocol_ne (e : Event) (p : Param) {protocol : Protocol} {name : Bytes}
    (h : p.protocol ≠ protocol) : (e.add p).getParam protocol name = e.getParam protocol name := by
  rw [getParam_add, if_neg fun hp ↦ h hp.1]

/-- An event with a parameter is not empty. -/
theorem paramCnt_pos_of_getParam {e : Event} {protocol : Protocol} {name : Bytes} {p : Param}
    (h : e.getParam protocol name = some p) : 0 < e.paramCnt := by
  refine List.length_pos_of_ne_nil fun hnil ↦ ?_
  rw [getParam, OrderedMap.get?, hnil] at h
  exact absurd h (by simp)

@[simp]
theorem getParam_empty (protocol : Protocol) (name : Bytes) :
    getParam .empty protocol name = none := rfl

end Event

end LibSeal
