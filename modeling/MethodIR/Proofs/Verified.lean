import MethodIR.Proofs.DominatorTree
import MethodIR.Proofs.UseLists
import MethodIR.Verify

/-!
# What verification checks

`Body.verify` succeeds if and only if the body keeps the rules of `Body.Verified`, which are stated
here on the tables of the body and its dominator tree, without the order of the checks.
-/

namespace MethodIR

open List

lemma Lists.nodup_eraseDups {α : Type} [DecidableEq α] (xs : List α) : xs.eraseDups.Nodup := by
  induction hn : xs.length using Nat.strong_induction_on generalizing xs with
  | _ n ih =>
    cases xs with
    | nil => simp
    | cons x xs =>
      rw [eraseDups_cons, nodup_cons]
      have hlt : (xs.filter fun y => !y == x).length < n := by
        have hle := length_filter_le (fun y => !y == x) xs
        simp only [length_cons] at hn
        omega
      exact ⟨by simp, ih _ hlt _ rfl⟩

namespace Verify

variable {α β : Type} {body : Body} {tree : DominatorTree} {b : BlockId} {i : InstId} {v : Value}
  {f : Unit → Except Error β} {c : β} {rule : Bool} {d : Defect} {is before : List InstId} {ss targets : List BlockId}
  {u : Use}

lemma bind_eq_ok {x : Except Error α} {f : α → Except Error β} :
    (x >>= f) = .ok c ↔ ∃ a, x = .ok a ∧ f a = .ok c := by
  cases x with
  | error e => simp [bind, Except.bind]
  | ok a => simp [bind, Except.bind]

lemma ok_bind {a : α} {f : α → Except Error β} : (Except.ok a >>= f) = f a := rfl

lemma check_bind_eq_ok {x : Except Error Unit} : (x >>= f) = .ok c ↔ x = .ok () ∧ f () = .ok c := by
  rw [bind_eq_ok]
  exact ⟨fun ⟨_, hx, hf⟩ => ⟨hx, hf⟩, fun ⟨hx, hf⟩ => ⟨(), hx, hf⟩⟩

lemma require_bind_eq_ok : (require rule d >>= f) = .ok c ↔ rule ∧ f () = .ok c := by
  rw [require]
  cases rule
  · simp [fail, bind, Except.bind]
  · simp [bind, Except.bind]

lemma require_eq_ok : require rule d = .ok () ↔ rule := by
  rw [require]
  cases rule <;> simp [fail]

lemma forM_eq_ok {xs : List α} {f : α → Except Error Unit} : xs.forM f = .ok () ↔ ∀ x ∈ xs, f x = .ok () := by
  induction xs with
  | nil =>
    simp only [not_mem_nil, IsEmpty.forall_iff, implies_true, iff_true]
    rfl
  | cons x xs ih =>
    change (f x >>= fun _ => xs.forM f) = _ ↔ _
    rw [check_bind_eq_ok, forall_mem_cons, ← ih]

lemma insts_eq_ok {afterNonPhi : Bool} : insts body b afterNonPhi is = .ok () ↔
      (∀ i ∈ is, (body.inst i).isRemoved = false ∧ (body.inst i).block = some b) ∧
      (afterNonPhi → ∀ i ∈ is, ¬(body.kind i).isPhi) ∧
      is.Pairwise (fun i j => (body.kind j).isPhi → (body.kind i).isPhi) ∧
      ∀ i ∈ is.dropLast, ¬(body.kind i).isTerminator := by
  induction is generalizing afterNonPhi with
  | nil => simp [insts]
  | cons i is ih =>
    simp only [insts, require_bind_eq_ok, ih, Body.kind]
    cases hphi : (body.inst i).kind.isPhi <;> cases is <;> cases afterNonPhi <;>
      simp [hphi] <;> grind

lemma succs_eq_ok {before : List BlockId} : succs body b before ss = .ok () ↔ ss.Nodup ∧ (∀ s ∈ ss, s ∉ before) ∧
      ∀ s ∈ ss, (body.block s).isRemoved = false ∧ b ∈ body.preds s := by
  induction ss generalizing before with
  | nil => simp [succs]
  | cons s ss ih =>
    simp only [succs, require_bind_eq_ok, ih, nodup_cons]
    simp
    grind

lemma targets_iff (hss : ss.Nodup) :
    targets.eraseDups.length = ss.length ∧ (∀ t ∈ targets.eraseDups, t ∈ ss) ↔ ∀ t, t ∈ targets ↔ t ∈ ss := by
  have hnodup : targets.eraseDups.Nodup := Lists.nodup_eraseDups _
  constructor
  · rintro ⟨hlen, hsub⟩ t
    have hperm : targets.eraseDups.Perm ss := (subperm_of_subset hnodup hsub).perm_of_length_le hlen.ge
    rw [← hperm.mem_iff, mem_eraseDups]
  · intro hiff
    have hperm : targets.eraseDups.Perm ss :=
      (perm_ext_iff_of_nodup hnodup hss).2 fun t => by rw [mem_eraseDups, hiff]
    exact ⟨hperm.length_eq, fun t ht => hperm.mem_iff.1 ht⟩

/-! ## Use lists -/

lemma uses_eq_ok {before us : List Use} : uses body v before us = .ok () ↔ us.Nodup ∧ (∀ u ∈ us, u ∉ before) ∧
      ∀ u ∈ us, (body.inst u.inst).isRemoved = false ∧ body.Holds u v := by
  induction us generalizing before with
  | nil => simp [uses]
  | cons u us ih =>
    simp only [uses, require_bind_eq_ok, ih, nodup_cons, Body.Holds]
    simp
    grind

lemma removed_eq_ok : removed body i = .ok () ↔
    ((body.inst i).isRemoved → (body.inst i).operands = [] ∧ (body.inst i).uses = []) := by
  simp only [removed, require_bind_eq_ok, require_eq_ok]
  cases (body.inst i).isRemoved <;> simp

def trackedUses (body : Body) : List (Value × Use) :=
  body.instIds.flatMap fun i => (body.slots i).filter fun x => x.1.isTracked

def listed (body : Body) : List (Value × Use) :=
  (trackedValues body).flatMap fun v => (body.uses v).map fun u => (v, u)

lemma mem_instIds : i ∈ body.instIds ↔ body.hasInst i := by
  simp only [Body.instIds, mem_map, mem_range, Body.hasInst, decide_eq_true_eq]
  constructor
  · rintro ⟨n, hn, rfl⟩
    exact hn
  · exact fun h => ⟨i.index, h, rfl⟩

lemma mem_trackedValues : v ∈ trackedValues body ↔ v.isTracked ∧ body.hasValue v := by
  simp only [trackedValues, mem_append, mem_map, mem_instIds]
  cases v with
  | const c => simp [Value.isTracked]
  | undef t => simp [Value.isTracked]
  | inst i => simp [Value.isTracked, Body.hasValue]
  | arg a =>
    simp only [Value.isTracked, Body.hasValue, Body.argIds, mem_map, mem_range,
      Value.arg.injEq, reduceCtorEq, and_false, exists_false, or_false, true_and, decide_eq_true_eq]
    constructor
    · rintro ⟨_, ⟨n, hn, rfl⟩, rfl⟩
      exact hn
    · exact fun h => ⟨a, ⟨a.index, h, rfl⟩, rfl⟩

lemma mem_trackedUses : (v, u) ∈ trackedUses body ↔ v.isTracked ∧ body.Holds u v := by
  simp only [trackedUses, mem_flatMap, mem_instIds, mem_filter, Body.mem_slots]
  exact ⟨fun ⟨_, _, h⟩ => ⟨h.2, h.1.2⟩, fun h => ⟨u.inst, h.2.hasInst, ⟨rfl, h.2⟩, h.1⟩⟩

lemma mem_listed : (v, u) ∈ listed body ↔ v ∈ trackedValues body ∧ u ∈ body.uses v := by
  simp [listed]

lemma length_trackedUses : (trackedUses body).length = trackedSlots body := by
  have hslots : ∀ i, ((body.slots i).filter fun x => x.1.isTracked).length =
      (body.inst i).operands.countP Value.isTracked := by
    intro i
    rw [← countP_eq_length_filter, Body.slots]
    have hmap : (body.inst i).operands = ((body.inst i).operands.mapIdx fun n v =>
        (v, (⟨i, n⟩ : Use))).map Prod.fst := by
      exact ext_getElem (by simp) fun k hk hk' => by simp
    conv_rhs => rw [hmap, countP_map]
    rfl
  rw [trackedUses, trackedSlots, ← Body.instIds_map_inst, length_flatMap, countP_flatMap, map_map]
  congr 1
  exact map_congr_left fun i _ => hslots i

lemma length_listed : (listed body).length = listedUses body := by
  simp [listed, listedUses, length_flatMap]

lemma nodup_trackedValues : (trackedValues body).Nodup := by
  rw [trackedValues, nodup_append]
  refine ⟨?_, ?_, by simp⟩
  · refine (nodup_range.map ?_).map ?_
    · exact fun _ _ h => ArgId.mk.inj h
    · exact fun _ _ h => Value.arg.inj h
  · refine (nodup_range.map ?_).map ?_
    · exact fun _ _ h => InstId.mk.inj h
    · exact fun _ _ h => Value.inst.inj h

lemma nodup_listed (h : ∀ v, (body.uses v).Nodup) : (listed body).Nodup := by
  refine nodup_flatMap.2 ⟨fun v _ => (h v).map fun _ _ he => (Prod.mk.inj he).2, ?_⟩
  refine nodup_trackedValues.imp fun hne => ?_
  intro x hx hx'
  simp only [mem_map] at hx hx'
  obtain ⟨_, _, rfl⟩ := hx
  obtain ⟨_, _, heq⟩ := hx'
  exact hne (Prod.mk.inj heq).1.symm

lemma nodup_trackedUses : (trackedUses body).Nodup := by
  refine nodup_flatMap.2 ⟨fun i _ => Body.nodup_slots.filter _, ?_⟩
  · have hnodup : body.instIds.Nodup := nodup_range.map fun _ _ h => InstId.mk.inj h
    refine hnodup.imp fun hne x hx hx' => ?_
    have hi := (Body.mem_slots.1 (mem_filter.1 hx).1).1
    have hj := (Body.mem_slots.1 (mem_filter.1 hx').1).1
    exact hne (hi.symm.trans hj)

lemma useLists_eq_ok : useLists body = .ok () ↔
    (∀ i, (body.inst i).isRemoved → (body.inst i).operands = [] ∧ (body.inst i).uses = []) ∧
      body.ExactUses := by
  have hnone : ∀ i, body.hasInst i = false → (body.inst i).isRemoved = false := by
    intro i hi
    rw [Body.inst, Tables.getD_of_size_le _ _ _ (by simpa [Body.hasInst] using hi)]
    rfl
  have hlists : (∀ v ∈ trackedValues body, uses body v [] (body.uses v) = .ok ()) ↔
      (∀ v, (body.uses v).Nodup) ∧ ∀ v, ∀ u ∈ body.uses v,
        (body.inst u.inst).isRemoved = false ∧ body.Holds u v := by
    have hall : ∀ v, (v ∈ trackedValues body → uses body v [] (body.uses v) = .ok ()) ↔
        (body.uses v).Nodup ∧ ∀ u ∈ body.uses v, (body.inst u.inst).isRemoved = false ∧ body.Holds u v := by
      intro v
      by_cases hv : v ∈ trackedValues body
      · simp [hv, uses_eq_ok]
      · have hnil : body.uses v = [] := by
          rw [mem_trackedValues, not_and_or] at hv
          rcases hv with hv | hv
          · cases v <;> simp_all [Value.isTracked, Body.uses]
          · exact Body.uses_of_not_hasValue (by simpa using hv)
        simp [hv, hnil]
    simp only [hall, forall_and]
  have hunits : useLists body = .ok () ↔ (∀ i ∈ body.instIds, removed body i = .ok ()) ∧
      (∀ v ∈ trackedValues body, uses body v [] (body.uses v) = .ok ()) ∧
      listedUses body = trackedSlots body := by
    simp only [useLists, check_bind_eq_ok, forM_eq_ok, require_eq_ok, decide_eq_true_eq]
  have hremoved : (∀ i ∈ body.instIds, removed body i = .ok ()) ↔ ∀ i, (body.inst i).isRemoved →
      (body.inst i).operands = [] ∧ (body.inst i).uses = [] := by
    simp only [removed_eq_ok, mem_instIds]
    refine ⟨fun h i hi => h i ?_ hi, fun h i _ => h i⟩
    by_contra hnot
    simp [hnone i (by simpa using hnot)] at hi
  rw [hunits, hremoved, hlists, ← length_listed, ← length_trackedUses]
  constructor
  · rintro ⟨hrem, ⟨hnodup, hholds⟩, hlen⟩
    refine ⟨hrem, hnodup, fun v u hv => ⟨fun hu => (hholds v u hu).2, fun hold => ?_⟩⟩
    have hsub : listed body ⊆ trackedUses body := by
      rintro ⟨w, u⟩ hmem
      obtain ⟨hw, hu⟩ := mem_listed.1 hmem
      exact mem_trackedUses.2 ⟨(mem_trackedValues.1 hw).1, (hholds w u hu).2⟩
    have hperm : (listed body).Perm (trackedUses body) :=
      (subperm_of_subset (nodup_listed hnodup) hsub).perm_of_length_le hlen.ge
    exact (mem_listed.1 (hperm.mem_iff.2 (mem_trackedUses.2 ⟨hv, hold⟩))).2
  · rintro ⟨hrem, hexact⟩
    have htracked : ∀ v, ∀ u ∈ body.uses v, v.isTracked := fun v u hu => by
      cases v <;> simp_all [Value.isTracked, Body.uses]
    have hholds : ∀ v, ∀ u ∈ body.uses v, body.Holds u v := fun v u hu =>
      (hexact.mem_iff v u (htracked v u hu)).1 hu
    refine ⟨hrem, ⟨hexact.nodup, fun v u hu => ⟨?_, hholds v u hu⟩⟩, ?_⟩
    · by_contra hnot
      have hops := (hrem u.inst (by simpa using hnot)).1
      have hold := hholds v u hu
      rw [Body.Holds, hops] at hold
      simp at hold
    · refine List.Perm.length_eq ?_
      refine (perm_ext_iff_of_nodup (nodup_listed hexact.nodup) nodup_trackedUses).2 ?_
      rintro ⟨v, u⟩
      rw [mem_listed, mem_trackedUses, mem_trackedValues]
      constructor
      · rintro ⟨hv, hu⟩
        exact ⟨hv.1, hholds v u hu⟩
      · rintro ⟨hv, hold⟩
        have hmem : v ∈ (body.inst u.inst).operands := mem_iff_getElem?.2 ⟨_, hold⟩
        exact ⟨⟨hv, hexact.hasValue hmem⟩, (hexact.mem_iff v u hv).2 hold⟩

/-! ## Operands -/

/-- An operand is defined where it is used: before it in its block, or in a block that dominates the
one it is needed in. -/
def Available (body : Body) (tree : DominatorTree) (b : BlockId) (before : List InstId) (i : InstId)
    (slot : Nat) (d : InstId) : Prop :=
  ∃ home, (body.inst d).block = some home ∧
    match body.kind i with
    | .phi blocks => ∀ p, blocks[slot]? = some p → tree.isReachable p → tree.dominates home p
    | _ => if home = b then d ∈ before else tree.strictlyDominates home b

lemma operand_eq_ok {slot : Nat} : operand body tree b before i slot v = .ok () ↔
      ∀ d, v = .inst d → Available body tree b before i slot d := by
  cases v with
  | inst d =>
    simp only [operand, Value.inst.injEq, forall_eq', Available]
    cases hhome : (body.inst d).block with
    | none => simp [fail]
    | some home =>
      simp only [require_eq_ok, Option.some.injEq, exists_eq_left']
      cases body.kind i with
      | phi blocks =>
        change (blocks[slot]?).all (availableFrom tree home) ↔
          ∀ p, blocks[slot]? = some p → tree.isReachable p → tree.dominates home p
        cases blocks[slot]? with
        | none => simp
        | some p =>
          simp only [Option.all_some, availableFrom, Option.some.injEq, forall_eq']
          cases tree.isReachable p <;> simp
      | _ =>
        by_cases hb : home = b
        · simp [hb]
        · simp [hb]
  | _ => simp [operand]

lemma operands_eq_ok : operands body tree b before is = .ok () ↔
    ∀ pre i post, is = pre ++ i :: post → ∀ slot d, (body.inst i).operands[slot]? = some (.inst d) →
      Available body tree b (pre.reverse ++ before) i slot d := by
  induction is generalizing before with
  | nil => simp [operands]
  | cons i is ih =>
    have hhead : ((body.inst i).operands.zipIdx.forM fun x =>
        operand body tree b before i x.2 x.1) = .ok () ↔
        ∀ slot d, (body.inst i).operands[slot]? = some (.inst d) →
          Available body tree b before i slot d := by
      simp only [forM_eq_ok, operand_eq_ok, Prod.forall, mem_zipIdx_iff_getElem?]
      exact ⟨fun h slot d hd => h _ slot hd d rfl, fun h v slot hv d hd => h slot d (hd ▸ hv)⟩
    have hsplit : operands body tree b before (i :: is) = .ok () ↔ ((body.inst i).operands.zipIdx.forM fun x =>
          operand body tree b before i x.2 x.1) = .ok () ∧
        operands body tree b (i :: before) is = .ok () := by
      rw [operands, check_bind_eq_ok]
    rw [hsplit, hhead, ih]
    constructor
    · rintro ⟨hi, his⟩ pre j post heq slot d hd
      cases pre with
      | nil =>
        obtain ⟨rfl, rfl⟩ := cons.inj heq
        simpa using hi slot d hd
      | cons k pre =>
        obtain ⟨rfl, rfl⟩ := cons.inj heq
        simpa using his pre j post rfl slot d hd
    · intro h
      refine ⟨fun slot d hd => by simpa using h [] i is rfl slot d hd, ?_⟩
      intro pre j post heq slot d hd
      simpa using h (i :: pre) j post (by simp [heq]) slot d hd

end Verify

open DominatorTree Body

/-- The rules of a body with an entry. -/
structure Body.Verified (body : Body) (entry : BlockId) : Prop where
  entry_eq : body.entry = some entry
  entry_live : (body.block entry).isRemoved = false
  entry_preds : body.preds entry = []
  live : ∀ b ∈ body.order, (body.block b).isRemoved = false
  listed : ∀ b ∈ body.order, ∀ i ∈ body.instsOf b, (body.inst i).isRemoved = false ∧ (body.inst i).block = some b
  phisFirst : ∀ b ∈ body.order, (body.instsOf b).Pairwise fun i j => (body.kind j).isPhi → (body.kind i).isPhi
  terminatorLast : ∀ b ∈ body.order, ∀ i ∈ (body.instsOf b).dropLast, ¬(body.kind i).isTerminator
  terminated : ∀ b ∈ body.order, (ofEntry body entry).isReachable b → (body.terminator? b).isSome
  succs_nodup : ∀ b ∈ body.order, (body.succs b).Nodup
  succs : ∀ b ∈ body.order, ∀ s ∈ body.succs b, (body.block s).isRemoved = false ∧ b ∈ body.preds s
  preds : ∀ b ∈ body.order, ∀ p ∈ body.preds b, b ∈ body.succs p
  targets : ∀ b ∈ body.order, ∀ t, t ∈ body.targets b ↔ t ∈ body.succs b
  phis : ∀ b ∈ body.order, ∀ i ∈ body.phis b, (body.phiArgs i).length = (body.preds b).length ∧
    ∀ p ∈ body.preds b, p ∈ (body.phiArgs i).map Prod.fst
  removed : ∀ i, (body.inst i).isRemoved → (body.inst i).operands = [] ∧ (body.inst i).uses = []
  uses : body.ExactUses
  operands : ∀ b ∈ body.order, (ofEntry body entry).isReachable b → ∀ pre i post,
    body.instsOf b = pre ++ i :: post → ∀ slot d, (body.inst i).operands[slot]? = some (.inst d) →
    Verify.Available body (ofEntry body entry) b pre.reverse i slot d

open Verify in
lemma Body.verify_eq_ok {body : Body} : body.verify = .ok () ↔ ∃ entry, body.Verified entry := by
  have hedges : ∀ b, Verify.edges body b = .ok () ↔ (body.succs b).Nodup ∧
      (∀ s ∈ body.succs b, (body.block s).isRemoved = false ∧ b ∈ body.preds s) ∧
      (∀ p ∈ body.preds b, b ∈ body.succs p) ∧
      (∀ t, t ∈ body.targets b ↔ t ∈ body.succs b) ∧
      ∀ i ∈ body.phis b, (body.phiArgs i).length = (body.preds b).length ∧
        ∀ p ∈ body.preds b, p ∈ (body.phiArgs i).map Prod.fst := by
    intro b
    simp only [Verify.edges, check_bind_eq_ok, succs_eq_ok, forM_eq_ok, require_eq_ok,
      Bool.and_eq_true, decide_eq_true_eq, all_eq_true, length_map, and_assoc]
    constructor
    · rintro ⟨hnodup, -, hsuccs, hpreds, hlen, htargets, hphis⟩
      exact ⟨hnodup, hsuccs, hpreds, (targets_iff hnodup).1 ⟨hlen, htargets⟩, hphis⟩
    · rintro ⟨hnodup, hsuccs, hpreds, htargets, hphis⟩
      obtain ⟨hlen, htargets⟩ := (targets_iff hnodup).2 htargets
      exact ⟨hnodup, by simp, hsuccs, hpreds, hlen, htargets, hphis⟩
  have hblock : ∀ tree b, Verify.block body tree b = .ok () ↔ (body.block b).isRemoved = false ∧
      (∀ i ∈ body.instsOf b, (body.inst i).isRemoved = false ∧ (body.inst i).block = some b) ∧
      (body.instsOf b).Pairwise (fun i j => (body.kind j).isPhi → (body.kind i).isPhi) ∧
      (∀ i ∈ (body.instsOf b).dropLast, ¬(body.kind i).isTerminator) ∧
      (tree.isReachable b → (body.terminator? b).isSome) := by
    intro tree b
    simp only [Verify.block, check_bind_eq_ok, require_eq_ok, insts_eq_ok, Bool.not_eq_true',
      Bool.false_eq_true, IsEmpty.forall_iff, true_and, and_assoc, Bool.or_eq_true]
    cases tree.isReachable b <;> simp
  have hentry : ∀ entry, body.entry = some entry → (Verify.entry body = .ok () ↔
      (body.block entry).isRemoved = false ∧ body.preds entry = []) := by
    intro entry he
    simp only [Verify.entry, he, check_bind_eq_ok, require_eq_ok, Bool.not_eq_true', List.isEmpty_iff]
  cases he : body.entry with
  | none =>
    constructor
    · intro h
      simp [verify, Verify.entry, he, fail, bind, Except.bind] at h
    · rintro ⟨entry, h⟩
      simp [h.entry_eq] at he
  | some entry =>
    have hverify : body.verify = .ok () ↔ ((body.block entry).isRemoved = false ∧ body.preds entry = []) ∧
        (∀ b ∈ body.order, Verify.block body (ofEntry body entry) b = .ok () ∧ Verify.edges body b = .ok ()) ∧
        Verify.useLists body = .ok () ∧
        ∀ b ∈ body.order, (ofEntry body entry).isReachable b →
          Verify.operands body (ofEntry body entry) b [] (body.instsOf b) = .ok () := by
      rw [verify, check_bind_eq_ok, hentry entry he, compute_eq he, ok_bind]
      simp only [check_bind_eq_ok, forM_eq_ok, mem_filter, and_imp]
    rw [hverify]
    simp only [hblock, hedges, useLists_eq_ok, operands_eq_ok, append_nil]
    constructor
    · rintro ⟨⟨hlive, hpreds⟩, hall, ⟨hrem, hexact⟩, hops⟩
      exact ⟨entry, he, hlive, hpreds, fun b hb => (hall b hb).1.1, fun b hb => (hall b hb).1.2.1,
        fun b hb => (hall b hb).1.2.2.1, fun b hb => (hall b hb).1.2.2.2.1,
        fun b hb => (hall b hb).1.2.2.2.2, fun b hb => (hall b hb).2.1,
        fun b hb => (hall b hb).2.2.1, fun b hb => (hall b hb).2.2.2.1,
        fun b hb => (hall b hb).2.2.2.2.1, fun b hb => (hall b hb).2.2.2.2.2, hrem, hexact, hops⟩
    · rintro ⟨e, h⟩
      obtain rfl : entry = e := Option.some.inj (he.symm.trans h.entry_eq)
      exact ⟨⟨h.entry_live, h.entry_preds⟩, fun b hb => ⟨⟨h.live b hb, h.listed b hb,
        h.phisFirst b hb, h.terminatorLast b hb, h.terminated b hb⟩, h.succs_nodup b hb,
        h.succs b hb, h.preds b hb, h.targets b hb, h.phis b hb⟩, ⟨h.removed, h.uses⟩, h.operands⟩

end MethodIR
