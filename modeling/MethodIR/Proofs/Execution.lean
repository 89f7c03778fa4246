import MethodIR.Proofs.RenamedBodies

/-!
# Execution along a walk

What instructions do to variables and to each other when control takes a given way. All that is not a
variable has any meaning (`Interpretation`); a trace tells what was evaluated (`Execution.trace`).
-/

namespace MethodIR

open List Body Function

/-- The meaning of what is not a variable. -/
structure Interpretation (D : Type) where
  const : Const → D
  undef : Ty → D
  arg : ArgId → D
  eval : Kind → Ty → List D → D

namespace Execution

variable {D : Type} {u : Value} {I : Interpretation D} {is : List InstId} {body : Body}

structure State (D : Type) where
  /-- The latest values of instructions. -/
  values : InstId → D
  /-- What has been stored to variables. -/
  stored : VarId → Option D := fun _ => none

/-- An instruction with the values of its operands. -/
structure Evaluation (D : Type) where
  inst : InstId
  operands : List D
  deriving DecidableEq

section

variable (I : Interpretation D) (body : Body)

def value (s : State D) : Value → D
  | .const c => I.const c
  | .undef t => I.undef t
  | .arg a => I.arg a
  | .inst i => s.values i

def convert (t : Ty) (d : D) : D := I.eval (.convert false false) t [d]

/-- A value of type `u` as one of type `t`: it is cut down if that is necessary. -/
def cut (t u : Ty) (d : D) : D := if t.narrows u then convert I t d else d

/-- What a store of `u` makes of a variable. -/
def toStore (s : State D) (v : VarId) (u : Value) : D := cut I (body.var v).ty (body.valueTy u) (value I s u)

/-- What a variable holds; it is undefined if nothing has been stored to it. -/
def contents (s : State D) (v : VarId) : D := (s.stored v).getD (I.undef (body.var v).ty)

/-- Evaluates an instruction. -/
def step (s : State D) (i : InstId) : State D :=
  match body.kind i with
  | .storeVar v =>
    match (body.inst i).operands with
    | [] => s
    | u :: _ => { s with stored := update s.stored v (some (toStore I body s v u)) }
  | .loadVar v => { s with values := update s.values i (contents I body s v) }
  | k =>
    let d := I.eval k (body.inst i).ty ((body.inst i).operands.map (value I s))
    { s with values := update s.values i d }

/-- The operand of a phi for control that comes from a block. -/
def incoming? (origin : Option BlockId) (φ : InstId) : Option Value :=
  origin.bind fun p => (body.phiArgs φ).lookup p

/-- The state after the phis of a block, all evaluated at once. -/
def enter (origin : Option BlockId) (b : BlockId) (s : State D) : State D where
  values i := if i ∈ body.phis b
    then ((incoming? body origin i).map (value I s)).getD (I.undef (body.inst i).ty)
    else s.values i
  stored := s.stored

def entering (origin : Option BlockId) (b : BlockId) (s : State D) : List (Evaluation D) :=
  (body.phis b).map fun φ => ⟨φ, (incoming? body origin φ).toList.map (value I s)⟩

/-- What evaluating instructions one after the other amounts to. -/
def evaluations (s : State D) : List InstId → List (Evaluation D)
  | [] => []
  | i :: is => ⟨i, (body.inst i).operands.map (value I s)⟩ :: evaluations (step I body s i) is

/-- The state after a block. -/
def leave (origin : Option BlockId) (b : BlockId) (s : State D) : State D :=
  (body.nonPhis b).foldl (step I body) (enter I body origin b s)

/-- What happens on the way through blocks, block by block. -/
def trace (origin : Option BlockId) (s : State D) : List BlockId → List (List (Evaluation D))
  | [] => []
  | b :: bs =>
    (entering I body origin b s ++ evaluations I body (enter I body origin b s) (body.nonPhis b)) ::
      trace (some b) (leave I body origin b s) bs

end

lemma inst_of_mem_evaluations {s : State D}
    {e : Evaluation D} (he : e ∈ evaluations I body s is) : e.inst ∈ is := by
  induction is generalizing s with
  | nil => simp [evaluations] at he
  | cons i is ih =>
    rw [evaluations, mem_cons] at he
    rcases he with rfl | he
    · simp
    · simp [ih he]

lemma exists_block_of_mem_trace {origin : Option BlockId}
    {s : State D} {bs : List BlockId} {es : List (Evaluation D)} (hes : es ∈ trace I body origin s bs)
    {e : Evaluation D} (he : e ∈ es) : ∃ b ∈ bs, e.inst ∈ body.instsOf b := by
  induction bs generalizing origin s with
  | nil => simp [trace] at hes
  | cons b bs ih =>
    rw [trace, mem_cons] at hes
    rcases hes with rfl | hes
    · refine ⟨b, by simp, ?_⟩
      rw [← phis_append_nonPhis]
      refine (mem_append.1 he).elim (fun he => ?_) fun he => ?_
      · obtain ⟨φ, hφ, rfl⟩ := mem_map.1 he
        exact mem_append_left _ hφ
      · exact mem_append_right _ (inst_of_mem_evaluations he)
    · obtain ⟨c, hc, hmem⟩ := ih hes
      exact ⟨c, by simp [hc], hmem⟩

/-! ## Phis that nothing uses -/

structure Thinned (x : Body) (dropped : InstId → Bool) (y : Body) : Prop where
  graph : x.SameGraph y
  list : ∀ b, y.instsOf b = (x.instsOf b).filter (!dropped ·)
  kept : ∀ i, dropped i = false → (y.inst i).bare = (x.inst i).bare
  phis : ∀ b, ∀ i ∈ x.instsOf b, dropped i → (x.kind i).isPhi
  closed : ∀ i, dropped i = false → ∀ d, .inst d ∈ (x.inst i).operands → dropped d = false

structure Like (dropped : InstId → Bool) (s s' : State D) : Prop where
  values : ∀ i, dropped i = false → s'.values i = s.values i
  stored : s'.stored = s.stored

variable {I : Interpretation D} {x y : Body} {dropped : InstId → Bool} {s s' : State D} {i φ : InstId}
  {b p : BlockId} {origin : Option BlockId}

lemma exists_slot (h : incoming? x (some p) φ = some u) :
    ∃ blocks, ∃ slot : Nat, x.kind φ = .phi blocks ∧ blocks[slot]? = some p ∧
      (x.inst φ).operands[slot]? = some u := by
  have hlookup : (x.phiArgs φ).lookup p = some u := h
  obtain ⟨before, after, hsplit, -⟩ := lookup_eq_some_iff.1 hlookup
  have hmem : (p, u) ∈ x.phiArgs φ := by simp [hsplit]
  rw [phiArgs] at hmem
  split at hmem
  · next blocks hk =>
    obtain ⟨slot, hslot⟩ := mem_iff_getElem?.1 hmem
    obtain ⟨hp, hu⟩ := getElem?_zip_eq_some.1 hslot
    exact ⟨blocks, slot, hk, hp, hu⟩
  · simp at hmem

lemma mem_operands_of_incoming? (h : incoming? x origin φ = some u) : u ∈ (x.inst φ).operands := by
  obtain ⟨p, rfl, -⟩ := Option.bind_eq_some_iff.1 h
  obtain ⟨-, slot, -, -, hslot⟩ := exists_slot h
  exact mem_of_getElem? hslot

lemma Like.value (hs : Like dropped s s') (hu : ∀ d, u = .inst d → dropped d = false) :
    value I s' u = value I s u := by
  cases u with
  | inst d => exact hs.values d (hu d rfl)
  | _ => rfl

lemma Like.update (hs : Like dropped s s') (i : InstId) {d d' : D} (hd : d' = d) :
    Like dropped { s with values := update s.values i d }
      { s' with values := update s'.values i d' } :=
  ⟨fun j hj => by simp [update_apply, hd, hs.values j hj], hs.stored⟩

namespace Thinned

lemma cut_filter {α : Type} {p q keep : α → Bool} {l : List α} (h : ∀ a ∈ l, keep a = false → p a)
    (hq : ∀ a, keep a → q a = p a) : (l.filter keep).takeWhile q = (l.takeWhile p).filter keep ∧
      (l.filter keep).dropWhile q = (l.dropWhile p).filter keep := by
  induction l with
  | nil => exact ⟨rfl, rfl⟩
  | cons a l ih =>
    have ih := ih fun c hc => h c (by simp [hc])
    cases hk : keep a with
    | true => cases hp : p a <;> simp [hk, hp, hq a hk, ih]
    | false => simp [hk, h a (by simp) hk, ih]

variable (h : Thinned x dropped y) (hs : Like dropped s s')

include h

lemma kind_eq (hi : dropped i = false) : y.kind i = x.kind i := by
  rw [kind_of_bare (h.kept i hi)]
  rfl

lemma ty_eq (hi : dropped i = false) : (y.inst i).ty = (x.inst i).ty := by
  rw [ty_of_bare (h.kept i hi)]
  rfl

lemma operands_eq (hi : dropped i = false) : (y.inst i).operands = (x.inst i).operands := by
  rw [operands_of_bare (h.kept i hi)]
  rfl

lemma phis_nonPhis (b : BlockId) : y.phis b = (x.phis b).filter (!dropped ·) ∧
    y.nonPhis b = (x.nonPhis b).filter (!dropped ·) := by
  rw [Body.phis, Body.nonPhis, h.list]
  refine cut_filter (fun i hi hdropped => h.phis b i hi (by simpa using hdropped)) fun i hi => ?_
  rw [h.kind_eq (by simpa using hi)]

lemma valueTy_eq (hu : ∀ d, u = .inst d → dropped d = false) : y.valueTy u = x.valueTy u :=
  valueTy_of_args h.graph.args fun d hd => h.ty_eq (hu d hd)

include hs

lemma map_value (hi : dropped i = false) :
    (y.inst i).operands.map (value I s') = (x.inst i).operands.map (value I s) := by
  rw [h.operands_eq hi]
  refine map_congr_left fun u hu => hs.value fun d hd => ?_
  exact h.closed i hi d (hd ▸ hu)

lemma step (hi : dropped i = false) : Like dropped (step I x s i) (step I y s' i) := by
  have hops := h.operands_eq hi
  have hmap := h.map_value (I := I) hs hi
  have hclosed := h.closed i hi
  rw [Execution.step, Execution.step, h.kind_eq hi]
  cases x.kind i
  case storeVar v =>
    rw [hops]
    cases hu : (x.inst i).operands with
    | nil => exact hs
    | cons u us =>
      have hu' : ∀ d, u = .inst d → dropped d = false := fun d hd => hclosed d (by simp [hu, hd])
      refine ⟨hs.values, ?_⟩
      simp only [toStore, h.graph.var, h.valueTy_eq hu', hs.value hu', hs.stored]
  case loadVar v => exact hs.update i (by rw [contents, h.graph.var, hs.stored, contents])
  all_goals exact hs.update i (by rw [hmap, h.ty_eq hi])

omit hs in
lemma incoming?_eq (hφ : dropped φ = false) : incoming? y origin φ = incoming? x origin φ := by
  rw [incoming?, incoming?, phiArgs, phiArgs, h.kind_eq hφ, h.operands_eq hφ]

lemma value_incoming? (origin : Option BlockId) (hφ : dropped φ = false) :
    (incoming? y origin φ).map (value I s') = (incoming? x origin φ).map (value I s) := by
  rw [h.incoming?_eq hφ]
  cases hu : incoming? x origin φ with
  | none => rfl
  | some u =>
    refine congrArg some (hs.value fun d hd => h.closed φ hφ d ?_)
    exact hd ▸ mem_operands_of_incoming? hu

lemma enter (origin : Option BlockId) (b : BlockId) :
    Like dropped (enter I x origin b s) (enter I y origin b s') := by
  refine ⟨fun i hi => ?_, hs.stored⟩
  simp only [Execution.enter, (h.phis_nonPhis b).1, mem_filter, hi, Bool.not_false, and_true,
    h.value_incoming? hs origin hi, h.ty_eq hi, hs.values i hi]

lemma entering (origin : Option BlockId) (b : BlockId) :
    entering I y origin b s' = (entering I x origin b s).filter (!dropped ·.inst) := by
  rw [Execution.entering, Execution.entering, (h.phis_nonPhis b).1, filter_map]
  refine map_congr_left fun φ hφ => ?_
  have hφ' : dropped φ = false := by simpa using (mem_filter.1 hφ).2
  have hvalue := h.value_incoming? (I := I) hs origin hφ'
  cases hx : incoming? x origin φ <;> simp_all [h.incoming?_eq hφ']

omit hs in
lemma step_dropped (hs : Like dropped s s') (hi : dropped i) (hmem : i ∈ x.instsOf b) :
    Like dropped (Execution.step I x s i) s' := by
  have hphi := h.phis b i hmem hi
  rw [Execution.step]
  cases hk : x.kind i
  case phi blocks =>
    refine ⟨fun j hj => ?_, hs.stored⟩
    have hne : j ≠ i := fun heq => by simp [← heq, hj] at hi
    simp [hne, hs.values j hj]
  all_goals simp [hk, Kind.isPhi] at hphi

lemma evaluations (his : ∀ i ∈ is, i ∈ x.instsOf b) :
    evaluations I y s' (is.filter (!dropped ·)) = (evaluations I x s is).filter (!dropped ·.inst) ∧
      Like dropped (is.foldl (Execution.step I x) s) ((is.filter (!dropped ·)).foldl (Execution.step I y) s') := by
  induction is generalizing s s' with
  | nil => exact ⟨rfl, hs⟩
  | cons i is ih =>
    have his' : ∀ j ∈ is, j ∈ x.instsOf b := fun j hj => his j (by simp [hj])
    cases hi : dropped i with
    | true =>
      simpa [hi, Execution.evaluations] using ih (h.step_dropped hs hi (his i (by simp))) his'
    | false =>
      have hmap := h.map_value (I := I) hs hi
      simpa [hi, Execution.evaluations, hmap] using ih (h.step hs hi) his'

lemma trace (bs : List BlockId) :
    trace I y origin s' bs = (trace I x origin s bs).map (·.filter (!dropped ·.inst)) := by
  induction bs generalizing origin s s' with
  | nil => rfl
  | cons b bs ih =>
    have hmem : ∀ i ∈ x.nonPhis b, i ∈ x.instsOf b := (dropWhile_sublist _).subset
    obtain ⟨hevals, hlast⟩ := h.evaluations (I := I) (h.enter hs origin b) hmem
    rw [← (h.phis_nonPhis b).2] at hevals hlast
    rw [Execution.trace, Execution.trace, map_cons, filter_append, h.entering hs, hevals]
    exact congrArg _ (ih hlast)

end Thinned

end Execution

end MethodIR
