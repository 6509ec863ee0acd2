import Mathlib
import MooScript.Builtin.Standard

/-! The arguments that the standard functions take, by number and kind. Whatever else they are given
is an invalid argument. -/
namespace MooScript

namespace ValueKind

def ordinals : List ValueKind := [boolean, character, integer, object]

def numbers : List ValueKind := [integer, float]

def sequences : List ValueKind := [list, string]

end ValueKind

namespace Value

variable {a b : Value}

/-- Two numbers, two ordinals of one kind, or two strings. -/
def Comparable (a b : Value) : Prop :=
  a.kind ∈ ValueKind.numbers ∧ b.kind ∈ ValueKind.numbers ∨
  a.kind ∈ ValueKind.ordinals ∧ a.kind = b.kind ∨
  a.kind = .string ∧ b.kind = .string

theorem kind_of_number? {x : Number} (h : a.number? = some x) : a.kind ∈ ValueKind.numbers := by
  cases a with
  | integer | float => simp [kind, ValueKind.numbers]
  | _ => cases h

theorem kind_of_ordinal? {x : Ordinal} (h : a.ordinal? = some x) :
    a.kind ∈ ValueKind.ordinals ∧ x.kind = a.kind := by
  cases a with
  | boolean | character | integer | object =>
    cases h
    simp [kind, Ordinal.kind, ValueKind.ordinals]
  | _ => cases h

theorem kind_of_aggregate? {x : Aggregate} (h : a.aggregate? = some x) :
    a.kind ∈ ValueKind.sequences := by
  cases a with
  | list | string => simp [kind, ValueKind.sequences]
  | _ => cases h

/-- Ordinals that are not comparable have no order. -/
theorem compare?_eq_none {x y : Ordinal} (hx : a.ordinal? = some x) (hy : b.ordinal? = some y)
    (h : ¬ Comparable a b) : x.compare? y = none := by
  obtain ⟨ha, hxa⟩ := kind_of_ordinal? hx
  obtain ⟨_, hyb⟩ := kind_of_ordinal? hy
  refine if_neg fun hkind => h (.inr (.inl ⟨ha, ?_⟩))
  rw [← hxa, hkind, hyb]

theorem min_of_not_comparable (h : ¬ Comparable a b) : min a b = .error .type := by
  unfold min
  split
  next x y hx hy => exact absurd (.inl ⟨kind_of_number? hx, kind_of_number? hy⟩) h
  next x y hx hy _ => rw [Ordinal.min, Ordinal.pick, compare?_eq_none hx hy h]
  next =>
    split
    next => exact absurd (.inr (.inr ⟨rfl, rfl⟩)) h
    next => rfl

theorem max_of_not_comparable (h : ¬ Comparable a b) : max a b = .error .type := by
  unfold max
  split
  next x y hx hy => exact absurd (.inl ⟨kind_of_number? hx, kind_of_number? hy⟩) h
  next x y hx hy _ => rw [Ordinal.max, Ordinal.pick, compare?_eq_none hx hy h]
  next =>
    split
    next => exact absurd (.inr (.inr ⟨rfl, rfl⟩)) h
    next => rfl

end Value

namespace Builtin

/-- The integer that stands for a byte in a list. -/
def ofByte (b : UInt8) : Value := .integer (Int64.ofNat b.toNat)

/-- The standard function of the name takes the arguments. -/
inductive Takes : String → List Value → Prop
  | nothing {name : String} (hname : name ∈ ["maxobject", "create"]) : Takes name []
  | typeof (a : Value) : Takes "typeof" [a]
  | pickle {a : Value} {bytes : Encoding.Bytes} (encoded : a.encode = .ok bytes) :
      Takes "pickle" [a]
  | unpickle {bytes : Encoding.Bytes} {a : Value} (decoded : Value.decode bytes = .ok a) :
      Takes "unpickle" [.list (bytes.map ofByte)]
  | object {name : String} (hname : name ∈ ["valid", "recycle", "properties"]) (id : ObjectId) :
      Takes name [.object id]
  | property {name : String} (hname : name ∈ ["get_property", "delete_property"]) (id : ObjectId)
      (property : String) : Takes name [.object id, .string property]
  | addProperty (id : ObjectId) (property : String) (a : Value) :
      Takes "add_property" [.object id, .string property, a]
  | sequence {name : String} (hname : name ∈ ["length", "first", "rest"]) {a : Value}
      (ha : a.kind ∈ ValueKind.sequences) : Takes name [a]
  | tostr (args : List Value) : Takes "tostr" args
  | chr (n : Int64) : Takes "chr" [.integer n]
  | ordinal {name : String} (hname : name ∈ ["ord", "succ", "pred"]) {a : Value}
      (ha : a.kind ∈ ValueKind.ordinals) : Takes name [a]
  | pair {name : String} (hname : name ∈ ["min", "max"]) {a b : Value}
      (h : Value.Comparable a b) : Takes name [a, b]
  | math (f : MathFunction) {a : Value} (ha : a.kind ∈ ValueKind.numbers) : Takes f.name [a]

/-- Arguments that it does not take are invalid, and change nothing. -/
def Guarded (name : String) (f : Builtin) : Prop := ∀ (args : List Value) (s : Store),
  ¬ Takes name args → f args s = (invalid, s)

variable {name : String}

theorem guarded_pure {f : List Value → Value} (h : ∀ args, ¬ Takes name args → f args = invalid) :
    Guarded name (pure f) :=
  fun args s hargs => congrArg (·, s) (h args hargs)

theorem guarded_query {f : List Value → Store → Value}
    (h : ∀ args s, ¬ Takes name args → f args s = invalid) : Guarded name (query f) :=
  fun args s hargs => congrArg (·, s) (h args s hargs)

theorem getD_map_eq_invalid {α : Type} {x? : Option α} {f : α → Value} (h : ∀ x, x? ≠ some x) :
    (x?.map f).getD invalid = invalid := by
  rw [Option.eq_none_iff_forall_ne_some.mpr h]
  rfl

theorem guarded_onAggregate {f : Aggregate → Value} (hname : name ∈ ["length", "first", "rest"]) :
    Guarded name (pure (onAggregate f)) := by
  refine guarded_pure fun args h => ?_
  unfold onAggregate
  split
  next value =>
    exact getD_map_eq_invalid fun x hx => h (.sequence hname (Value.kind_of_aggregate? hx))
  next => rfl

theorem guarded_onOrdinal {f : Ordinal → Value} (hname : name ∈ ["ord", "succ", "pred"]) :
    Guarded name (pure (onOrdinal f)) := by
  refine guarded_pure fun args h => ?_
  unfold onOrdinal
  split
  next value =>
    exact getD_map_eq_invalid fun x hx => h (.ordinal hname (Value.kind_of_ordinal? hx).1)
  next => rfl

theorem guarded_onPair {f : Value → Value → Value} (hname : name ∈ ["min", "max"])
    (hf : ∀ a b, ¬ Value.Comparable a b → f a b = .error .type) :
    Guarded name (pure (onPair f)) := by
  refine guarded_pure fun args h => ?_
  unfold onPair
  split
  next a b => rw [hf a b fun hab => h (.pair hname hab)]
  next => rfl

theorem guarded_math (f : MathFunction) : Guarded f.name (pure (math f)) := by
  refine guarded_pure fun args h => ?_
  unfold math onNumber
  split
  next value => exact getD_map_eq_invalid fun x hx => h (.math f (Value.kind_of_number? hx))
  next => rfl

theorem guarded_typeof : Guarded "typeof" (pure typeof) := by
  refine guarded_pure fun args h => ?_
  unfold typeof
  split
  next value => exact absurd (.typeof value) h
  next => rfl

theorem guarded_pickle : Guarded "pickle" (pure pickle) := by
  refine guarded_pure fun args h => ?_
  unfold pickle
  split
  next value =>
    split
    next bytes encoded => exact absurd (.pickle encoded) h
    next => rfl
  next => rfl

theorem eq_ofByte_of_byte? {a : Value} {b : UInt8} (h : byte? a = some b) : a = ofByte b := by
  cases a with
  | integer n =>
    simp only [byte?, Value.integer?, Option.bind_eq_bind, Option.bind_some,
      Option.ite_none_right_eq_some, Option.some.injEq] at h
    obtain ⟨⟨hnonneg, hlt⟩, rfl⟩ := h
    have hsize : n.toInt.toNat < 256 := (Int.toNat_lt hnonneg).mpr hlt
    have hbyte : (UInt8.ofNat n.toInt.toNat).toNat = n.toInt.toNat :=
      UInt8.toNat_ofNat_of_lt' hsize
    rw [ofByte, hbyte, Value.integer.injEq, ← Int64.toInt_inj,
      Int64.toInt_ofNat_of_lt (by omega), Int.toNat_of_nonneg hnonneg]
  | _ => cases h

theorem eq_map_ofByte_of_mapM {items : List Value} {bytes : Encoding.Bytes}
    (h : items.mapM byte? = some bytes) : items = bytes.map ofByte := by
  induction items generalizing bytes with
  | nil =>
    cases h
    rfl
  | cons item items ih =>
    simp only [List.mapM_cons, Option.bind_eq_bind, Option.bind_eq_some_iff, Option.pure_def,
      Option.some.injEq] at h
    obtain ⟨b, hb, bs, hbs, rfl⟩ := h
    rw [List.map_cons, ← ih hbs, ← eq_ofByte_of_byte? hb]

theorem guarded_unpickle : Guarded "unpickle" (pure unpickle) := by
  refine guarded_pure fun args h => ?_
  unfold unpickle
  split
  next items =>
    split
    next bytes hbytes =>
      split
      next value decoded =>
        rw [eq_map_ofByte_of_mapM hbytes] at h
        exact absurd (.unpickle decoded) h
      next => rfl
    next => rfl
  next => rfl

theorem guarded_chr : Guarded "chr" (pure chr) := by
  refine guarded_pure fun args h => ?_
  unfold chr
  split
  next n => exact absurd (.chr n) h
  next => rfl

theorem guarded_valid : Guarded "valid" (query valid) := by
  refine guarded_query fun args s h => ?_
  unfold valid
  split
  next id => exact absurd (.object (by simp) id) h
  next => rfl

theorem guarded_maxObject : Guarded "maxobject" (query maxObject) := by
  refine guarded_query fun args s h => ?_
  unfold maxObject
  split
  next => exact absurd (.nothing (by simp)) h
  next => rfl

theorem guarded_getProperty : Guarded "get_property" (query getProperty) := by
  refine guarded_query fun args s h => ?_
  unfold getProperty
  split
  next id property => exact absurd (.property (by simp) id property) h
  next => rfl

theorem guarded_properties : Guarded "properties" (query properties) := by
  refine guarded_query fun args s h => ?_
  unfold properties
  split
  next id => exact absurd (.object (by simp) id) h
  next => rfl

theorem guarded_create : Guarded "create" create := by
  intro args s h
  unfold create
  split
  next => exact absurd (.nothing (by simp)) h
  next => rfl

theorem guarded_recycle : Guarded "recycle" recycle := by
  intro args s h
  unfold recycle
  split
  next _ id => exact absurd (.object (by simp) id) h
  next => rfl

theorem guarded_addProperty : Guarded "add_property" addProperty := by
  intro args s h
  unfold addProperty
  split
  next _ id property value => exact absurd (.addProperty id property value) h
  next => rfl

theorem guarded_deleteProperty : Guarded "delete_property" deleteProperty := by
  intro args s h
  unfold deleteProperty
  split
  next _ id property => exact absurd (.property (by simp) id property) h
  next => rfl

theorem guarded_tostr : Guarded "tostr" (pure tostr) :=
  guarded_pure fun args h => absurd (.tostr args) h

end Builtin
end MooScript
