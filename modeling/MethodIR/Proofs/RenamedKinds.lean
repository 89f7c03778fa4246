import Mathlib
import MethodIR.Clone
import MethodIR.Promotion.Accesses

/-!
# Kinds under other names and contexts

What a kind becomes when its entities are specialized and its blocks and variables get other names (`Kind.renamed`).
Specializing under two contexts is specializing once under their composition, for types and for all that holds types
(`specialize_andThen`). Methods and fields that are left alone are those in which no type would change.
-/

namespace MethodIR

variable {ctx : GenericContext} {n : Nat}

lemma Method.argCount_specialize (m : Method) : (m.specialize ctx).sig.argCount = m.sig.argCount ∧
    (m.specialize ctx).sig.params.length = m.sig.params.length := by
  rw [specialize]
  split
  · exact ⟨rfl, rfl⟩
  · simp [Signature.specialize, Signature.argCount]

lemma Field.isStatic_specialize (f : Field) : (f.specialize ctx).isStatic = f.isStatic := by
  rw [specialize]
  split <;> rfl

namespace Kind

variable {f f' : BlockId → BlockId} {h h' : VarId → VarId} {k : Kind}

/-- Puts `h v` for the variable `v` of a kind. -/
def mapVar (h : VarId → VarId) : Kind → Kind
  | loadVar v => loadVar (h v)
  | storeVar v => storeVar (h v)
  | varAddr v => varAddr (h v)
  | k => k

/-- A kind whose entities are specialized and whose blocks and variables have other names. -/
def renamed (ctx : GenericContext) (f : BlockId → BlockId) (h : VarId → VarId) (k : Kind) : Kind :=
  ((k.specialize ctx).mapBlocks f).mapVar h

lemma arity?_renamed (k : Kind) : (k.renamed ctx f h).arity? = k.arity? := by
  cases k <;>
    simp [renamed, specialize, mapBlocks, mapVar, arity?, Field.isStatic_specialize, Method.argCount_specialize]

lemma arityViolation?_renamed (hk : Edit.arityViolation? k n = none) :
    Edit.arityViolation? (k.renamed ctx f h) n = none := by
  rw [Edit.arityViolation?] at hk ⊢
  rw [arity?_renamed]
  cases ha : k.arity? <;> simp_all

lemma successors_renamed (k : Kind) : (k.renamed ctx f h).successors = k.successors.map f := by
  cases k with
  | guard r b filter c => cases filter <;> rfl
  | switch ts d => simp [renamed, specialize, mapBlocks, mapVar, successors]
  | _ => rfl

lemma mem_blocks_of_mem_successors {b : BlockId} (hb : b ∈ k.successors) : b ∈ k.blocks := by
  cases k with
  | phi bs => cases hb
  | _ => exact hb

lemma isPhi_renamed (k : Kind) : (k.renamed ctx f h).isPhi = k.isPhi := by cases k <;> rfl

lemma isTerminator_renamed (k : Kind) : (k.renamed ctx f h).isTerminator = k.isTerminator := by
  cases k <;> rfl

lemma renamed_eq_phi {bs : List BlockId} : k.renamed ctx f h = .phi bs ↔ ∃ cs, k = .phi cs ∧ bs = cs.map f := by
  cases k <;> simp [renamed, specialize, mapBlocks, mapVar, eq_comm]

lemma mapBlocks_congr (hf : ∀ b ∈ k.blocks, f b = f' b) : k.mapBlocks f = k.mapBlocks f' := by
  cases k with
  | guard r b filter c => cases filter <;> simp_all [mapBlocks, blocks, successors]
  | _ => simp_all [mapBlocks, blocks, successors]

lemma mapVar_congr (hh : ∀ v, k.var? = some v → h v = h' v) : k.mapVar h = k.mapVar h' := by
  cases k <;> simp_all [mapVar, var?]

lemma mapVar_of_var?_eq_none (hk : k.var? = none) : k.mapVar h = k := by
  cases k with
  | loadVar v | storeVar v | varAddr v => cases hk
  | _ => rfl

lemma blocks_specialize (k : Kind) : (k.specialize ctx).blocks = k.blocks := by cases k <;> rfl

lemma var?_specialize_mapBlocks (k : Kind) : ((k.specialize ctx).mapBlocks f).var? = k.var? := by
  cases k <;> rfl

end Kind

/-- A value of which the instruction has another name and the type is specialized. -/
def Value.renamed (ctx : GenericContext) (g : InstId → InstId) : Value → Value
  | .undef t => .undef (t.specialize ctx)
  | .inst d => .inst (g d)
  | v => v

open List

variable (c d : GenericContext)

/-- The arguments of `c`, specialized under `d`, and those of `d` for the parameters that `c` leaves. -/
def GenericContext.andThen : GenericContext :=
  { typeArgs := c.typeArgs.map (·.specialize d) ++ d.typeArgs.drop c.typeArgs.length
    methodArgs := c.methodArgs.map (·.specialize d) ++ d.methodArgs.drop c.methodArgs.length }

/-! ## Types -/

namespace Ty

lemma specialize_argument (as bs : List Ty) {p : Ty} (hp : p.specialize d = bs[n]?.getD p) :
    (as[n]?.getD p).specialize d = (as.map (·.specialize d) ++ bs.drop as.length)[n]?.getD p := by
  rcases Nat.lt_or_ge n as.length with hn | hn
  · rw [getElem?_append_left (by simpa using hn)]
    simp [hn]
  · rw [getElem?_eq_none hn, getElem?_append_right (by simpa using hn), getElem?_drop, length_map,
      Nat.add_sub_cancel' hn]
    exact hp

mutual

lemma specialize_specialize (t : Ty) : (t.specialize c).specialize d = t.specialize (c.andThen d) := by
  cases t with
  | prim p => rfl
  | named e => rfl
  | applied e args => simp only [specialize, specializeAll_specializeAll]
  | array e | pointer e | byRef e => simp only [specialize, specialize_specialize e]
  | typeParam n => exact specialize_argument d c.typeArgs d.typeArgs rfl
  | methodParam n => exact specialize_argument d c.methodArgs d.methodArgs rfl

lemma specializeAll_specializeAll (ts : List Ty) :
    specializeAll d (specializeAll c ts) = specializeAll (c.andThen d) ts := by
  cases ts with
  | nil => rfl
  | cons t ts => simp only [specializeAll, specialize_specialize t, specializeAll_specializeAll ts]

end

variable {c}

mutual

lemma specialize_eq_self {t : Ty} (h : c.isEmpty ∨ t.isOpen = false) : t.specialize c = t := by
  cases t with
  | prim p => rfl
  | named e => rfl
  | applied e args => rw [specialize, specializeAll_eq_self h]
  | array e | pointer e | byRef e => rw [specialize, specialize_eq_self (t := e) h]
  | typeParam n | methodParam n =>
    have hempty := h.resolve_right (by simp [isOpen])
    simp_all [GenericContext.isEmpty, specialize]

lemma specializeAll_eq_self {ts : List Ty} (h : c.isEmpty ∨ anyOpen ts = false) : specializeAll c ts = ts := by
  cases ts with
  | nil => rfl
  | cons t ts =>
    rw [anyOpen, Bool.or_eq_false_iff] at h
    rw [specializeAll, specialize_eq_self (h.imp_right And.left), specializeAll_eq_self (h.imp_right And.right)]

end

lemma map_specialize_eq_self {ts : List Ty} (h : c.isEmpty ∨ ts.any isOpen = false) :
    ts.map (·.specialize c) = ts := by
  rw [← specializeAll_eq_map, specializeAll_eq_self (anyOpen_eq_any ts ▸ h)]

end Ty

lemma Signature.specialize_specialize (s : Signature) :
    (s.specialize c).specialize d = s.specialize (c.andThen d) := by
  simp [specialize, Ty.specialize_specialize]

/-! ## Methods and fields -/

/-- A method with every type specialized, whether it is open or not. -/
def Method.substituted (m : Method) : Method :=
  { m with
    declaring := m.declaring.specialize c
    sig := m.sig.specialize c
    genericArgs := m.genericArgs.map (·.specialize c) }

/-- A field with both types specialized, whether it is open or not. -/
def Field.substituted (f : Field) : Field :=
  { f with declaring := f.declaring.specialize c, ty := f.ty.specialize c }

lemma Method.specialize_eq_substituted (m : Method) : m.specialize c = m.substituted c := by
  rw [specialize]
  split
  · next h =>
    rw [Bool.or_eq_true, Bool.not_eq_true'] at h
    simp only [isOpen, Bool.or_eq_false_iff] at h
    rw [substituted, Signature.specialize, Ty.specialize_eq_self (h.imp_right fun h => h.1.1.1),
      Ty.specialize_eq_self (h.imp_right fun h => h.1.1.2), Ty.map_specialize_eq_self (h.imp_right fun h => h.1.2),
      Ty.map_specialize_eq_self (h.imp_right fun h => h.2)]
  · rfl

lemma Field.specialize_eq_substituted (f : Field) : f.specialize c = f.substituted c := by
  rw [specialize]
  split
  · next h =>
    rw [Bool.or_eq_true, Bool.not_eq_true', Bool.or_eq_false_iff] at h
    rw [substituted, Ty.specialize_eq_self (h.imp_right And.left), Ty.specialize_eq_self (h.imp_right And.right)]
  · rfl

lemma Method.specialize_specialize (m : Method) : (m.specialize c).specialize d = m.specialize (c.andThen d) := by
  simp [specialize_eq_substituted, substituted, Ty.specialize_specialize, Signature.specialize_specialize]

lemma Field.specialize_specialize (f : Field) : (f.specialize c).specialize d = f.specialize (c.andThen d) := by
  simp [specialize_eq_substituted, substituted, Ty.specialize_specialize]

lemma Entity.specialize_specialize (e : Entity) : (e.specialize c).specialize d = e.specialize (c.andThen d) := by
  cases e with
  | ty t => rw [specialize, specialize, specialize, Ty.specialize_specialize]
  | method m => rw [specialize, specialize, specialize, Method.specialize_specialize]
  | field f => rw [specialize, specialize, specialize, Field.specialize_specialize]

/-! ## Kinds of instruction -/

lemma Kind.specialize_specialize (k : Kind) : (k.specialize c).specialize d = k.specialize (c.andThen d) := by
  cases k <;> simp [specialize, Function.comp_def, Ty.specialize_specialize, Method.specialize_specialize,
    Field.specialize_specialize, Entity.specialize_specialize]

/-- Two contexts one after the other do what their composition does, to types, signatures, methods, fields,
entities and kinds. Leaving a method or field alone is specializing each type in it. Names, successors and the
number of operands stay. -/
theorem specialize_andThen : (∀ t : Ty, (t.specialize c).specialize d = t.specialize (c.andThen d)) ∧
    (∀ s : Signature, (s.specialize c).specialize d = s.specialize (c.andThen d)) ∧
    (∀ m : Method, (m.specialize c).specialize d = m.specialize (c.andThen d) ∧
      m.specialize c = m.substituted c ∧ (m.specialize c).name = m.name) ∧
    (∀ f : Field, (f.specialize c).specialize d = f.specialize (c.andThen d) ∧
      f.specialize c = f.substituted c ∧ (f.specialize c).name = f.name) ∧
    (∀ e : Entity, (e.specialize c).specialize d = e.specialize (c.andThen d)) ∧
    ∀ k : Kind, (k.specialize c).specialize d = k.specialize (c.andThen d) ∧
      (k.specialize c).arity? = k.arity? ∧ (k.specialize c).successors = k.successors ∧
      (k.specialize c).name = k.name := by
  refine ⟨Ty.specialize_specialize c d, Signature.specialize_specialize c d, fun m => ?_, fun f => ?_,
    Entity.specialize_specialize c d, fun k => ⟨Kind.specialize_specialize c d k, ?_, ?_, ?_⟩⟩
  · have heq := m.specialize_eq_substituted c
    exact ⟨m.specialize_specialize c d, heq, by rw [heq, Method.substituted]⟩
  · have heq := f.specialize_eq_substituted c
    exact ⟨f.specialize_specialize c d, heq, by rw [heq, Field.substituted]⟩
  · cases k <;> simp [Kind.specialize, Kind.arity?, Field.isStatic_specialize, Method.argCount_specialize]
  · cases k <;> rfl
  · cases k <;> rfl

end MethodIR
