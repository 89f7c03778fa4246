import MethodIR.Proofs.PromotedBodies

/-!
# Loads of variables without a value

Which loads renaming comes to before their variable has a value can be said of the body before
renaming (`blankReads`). On its walk renaming counts and reports exactly these (`Survey`).
-/

namespace MethodIR

open List FlowGraph DominatorTree DepthFirst Success Traced Function

def Event.isUndefinedRead : Event → Bool
  | .undefinedRead .. => true
  | _ => false

/-- The reports of undefined variables among all reports. -/
def Event.warnings (log : Array Event) : List Event := log.toList.filter isUndefinedRead

namespace Promotion

open Renaming

variable {x y y' : Body} {plan : RenamingPlan} {entry b : BlockId} {r r' : Record} {i j : InstId} {v : VarId}
  {w u : Value} {h h' : Pushes} {known : VarId → Bool} {is js : List InstId} {p : InstId × VarId} {a : Accesses}
  {ty : Ty} {bs succs : List BlockId}

/-! ## The loads of a block -/

def blankRead? (x : Body) (a : Accesses) (known : VarId → Bool) (i : InstId) : Option VarId :=
  match x.kind i with
  | .loadVar v => if a.isPromotable v && !known v then some v else none
  | _ => none

def blankReads (x : Body) (a : Accesses) : (VarId → Bool) → List InstId → List (InstId × VarId)
  | _, [] => []
  | known, i :: is =>
    ((blankRead? x a known i).map (i, ·)).toList ++ blankReads x a (fun v => known v || x.kind i = .storeVar v) is

lemma blankRead?_eq_some_iff : blankRead? x a known i = some v ↔
    x.kind i = .loadVar v ∧ a.isPromotable v ∧ known v = false := by
  rw [blankRead?]
  cases x.kind i <;> grind

lemma mem_blankReads : p ∈ blankReads x a known is ↔ ∃ pre post, is = pre ++ p.1 :: post ∧
    x.kind p.1 = .loadVar p.2 ∧ a.isPromotable p.2 ∧ known p.2 = false ∧ ∀ j ∈ pre, x.kind j ≠ .storeVar p.2 := by
  induction is generalizing known with
  | nil => simp [blankReads]
  | cons i is ih =>
    obtain ⟨d, v⟩ := p
    have hhead : (d, v) ∈ ((blankRead? x a known i).map (i, ·)).toList ↔
        d = i ∧ x.kind i = .loadVar v ∧ a.isPromotable v ∧ known v = false := by
      rw [Option.mem_toList, Option.map_eq_some_iff]
      simp only [blankRead?_eq_some_iff, Prod.mk.injEq]
      grind
    rw [blankReads, mem_append, hhead, ih]
    constructor
    · rintro (⟨rfl, hk, hprom, hknown⟩ | ⟨pre, post, rfl, hk, hprom, hknown, hno⟩)
      · exact ⟨[], is, rfl, hk, hprom, hknown, by simp⟩
      · simp only [Bool.or_eq_false_iff, decide_eq_false_iff_not] at hknown
        refine ⟨i :: pre, post, rfl, hk, hprom, hknown.1, fun j hj => ?_⟩
        rcases mem_cons.1 hj with rfl | hj
        · exact hknown.2
        · exact hno j hj
    · rintro ⟨pre, post, hsplit, hk, hprom, hknown, hno⟩
      cases pre with
      | nil =>
        obtain ⟨rfl, rfl⟩ := cons.inj hsplit
        exact .inl ⟨rfl, hk, hprom, hknown⟩
      | cons c pre =>
        obtain ⟨rfl, rfl⟩ := cons.inj hsplit
        refine .inr ⟨pre, post, rfl, hk, hprom, ?_, fun j hj => hno j (by simp [hj])⟩
        simp [hknown, hno i (by simp)]

lemma blankReads_sublist : ((blankReads x a known is).map Prod.fst).Sublist is := by
  induction is generalizing known with
  | nil => exact .slnil
  | cons i is ih =>
    rw [blankReads, map_append]
    cases blankRead? x a known i with
    | none => exact ih.cons i
    | some v => exact ih.cons_cons i

/-! ## What is known -/

def Agrees (plan : RenamingPlan) (known : VarId → Bool) (h : Pushes) : Prop :=
  ∀ v, plan.accesses.isPromotable v → known v = (current h v).isSome

lemma Agrees.push (hknown : Agrees plan known h) (hk : x.kind i = .storeVar v) (b : BlockId)
    (w : Value) : Agrees plan (fun v => known v || x.kind i = .storeVar v) ((b, v, w) :: h) := by
  intro v' hv'
  rw [current_cons, hk]
  by_cases heq : v' = v
  · simp [heq]
  · simp [heq, Ne.symm heq, hknown v' hv']

lemma Accessed.agrees (ha : Accessed x plan b i r y h r' y' h') (hknown : Agrees plan known h) :
    Agrees plan (fun v => known v || x.kind i = .storeVar v) h' := by
  cases ha with
  | other hk =>
    intro v hv
    have hne : x.kind i ≠ .storeVar v := fun heq => by simp [heq, Accesses.concerns, hv] at hk
    simpa [hne] using hknown v hv
  | load hk =>
    intro v hv
    simpa [hk] using hknown v hv
  | store hk => exact hknown.push hk _ _
  | narrow hk => exact hknown.push hk _ _

lemma Chain.isSome_current_iff (hc : Chain x plan b is r y h r' y' h') (hv : plan.accesses.isPromotable v) :
    (current h' v).isSome ↔ (current h v).isSome ∨ ∃ i ∈ is, x.kind i = .storeVar v := by
  induction hc with
  | nil => simp
  | @cons _ _ _ _ _ _ _ _ h _ _ step _ ih =>
    have hagrees : Agrees plan (fun v => (current h v).isSome) h := fun _ _ => rfl
    have hstep := step.agrees hagrees v hv
    rw [ih, ← hstep]
    simp [or_assoc]

/-! ## What stands for a load -/

def Untouched (r : Record) : Prop := ∀ i, ¬r.gone i → r.sub (.inst i) = .inst i

section

variable (ha : Accessed x plan b i r y h r' y' h')
include ha

lemma Accessed.untouched (hr : Untouched r) : Untouched r' := by
  intro j hj
  cases ha with
  | other => exact hr j hj
  | load =>
    obtain ⟨hne, hgone⟩ : j ≠ i ∧ ¬r.gone j := not_or.1 hj
    change Value.replace (.inst i) _ (r.sub (.inst j)) = _
    rw [hr j hgone, Value.replace_of_ne (by simpa using hne)]
  | store => exact hr j fun hgone => hj (.inr hgone)
  | narrow => exact hr j fun hgone => hj (.inr hgone)

lemma Accessed.sub_load (hr : Untouched r)
    (hgone : ¬r.gone i) (hk : x.kind i = .loadVar v) (hv : plan.accesses.isPromotable v) :
    r'.sub (.inst i) = held x (current h) v := by
  cases ha with
  | other hnot => simp [hk, Accesses.concerns, hv] at hnot
  | load hk' _ hw =>
    obtain rfl := Kind.loadVar.inj (hk.symm.trans hk')
    change Value.replace (.inst i) _ (r.sub (.inst i)) = _
    rw [hr i hgone, Value.replace_self, hw]
  | store hk' => simp [hk] at hk'
  | narrow hk' => simp [hk] at hk'

lemma Accessed.sub_undef (hu : r.sub u = .undef ty) : r'.sub u = .undef ty := by
  cases ha with
  | load =>
    change Value.replace _ _ (r.sub u) = _
    rw [hu, Value.replace_of_ne (by simp)]
  | _ => exact hu

end

section

variable (hc : Chain x plan b is r y h r' y' h')
include hc

lemma Chain.untouched (hr : Untouched r) : Untouched r' := by
  induction hc with
  | nil => exact hr
  | cons step _ ih => exact ih (step.untouched hr)

lemma Chain.sub_undef (hu : r.sub u = .undef ty) : r'.sub u = .undef ty := by
  induction hc with
  | nil => exact hu
  | cons step _ ih => exact ih (step.sub_undef hu)

lemma Chain.sub_blankRead (hren : Renames x plan r y) (hplan : Headed x plan) (hrest : r.rest b = js ++ is)
    (hr : Untouched r) (hknown : Agrees plan known h) (hp : p ∈ blankReads x plan.accesses known is) :
    r'.sub (.inst p.1) = .undef (x.var p.2).ty := by
  induction hc generalizing known js with
  | nil => simp [blankReads] at hp
  | @cons i _ _ _ _ _ _ _ h _ _ step rest ih =>
    rcases mem_append.1 hp with hp | hp
    · obtain ⟨v, hread, rfl⟩ := Option.map_eq_some_iff.1 (Option.mem_toList.1 hp)
      obtain ⟨hk, hv, hfalse⟩ := blankRead?_eq_some_iff.1 hread
      have hnone : current h v = none := by simpa [hfalse] using (hknown v hv).symm
      have hgone := hren.not_gone (hren.mem_instsOf (b := b) (i := i) (by simp [hrest]))
      refine rest.sub_undef ((step.sub_load hr hgone hk hv).trans ?_)
      rw [held, hnone]
      rfl
    · obtain ⟨τ, js₁, hadv, hrest₁, -⟩ := step.advance hren hplan hrest
      exact ih hadv.renames hrest₁ (step.untouched hr) (step.agrees hknown) hp

end

lemma Passed.sub_gone {ρ : Values} (hp : Passed x plan b ρ is r y r' y') : r'.sub = r.sub ∧ r'.gone = r.gone := by
  induction hp with
  | nil => exact ⟨rfl, rfl⟩
  | pass _ _ _ ih => exact ih

section Entered

variable (he : Entered x plan b r y h r' y' h')

include he

lemma Entered.untouched (hr : Untouched r) : Untouched r' := by
  obtain ⟨r₁, y₁, hchain, hp⟩ := he
  obtain ⟨hsub, hgone⟩ := hp.sub_gone
  intro i hi
  rw [hsub]
  exact hchain.untouched hr i (hgone ▸ hi)

lemma Entered.sub_undef (hu : r.sub u = .undef ty) : r'.sub u = .undef ty := by
  obtain ⟨r₁, y₁, hchain, hp⟩ := he
  rw [hp.sub_gone.1]
  exact hchain.sub_undef hu

lemma Entered.sub_blankRead (hren : Renames x plan r y) (hplan : Headed x plan) (hr : Untouched r)
    (hknown : Agrees plan known (headings plan b (x.phis b) ++ h))
    (hp : p ∈ blankReads x plan.accesses known (r.rest b)) : r'.sub (.inst p.1) = .undef (x.var p.2).ty := by
  obtain ⟨r₁, y₁, hchain, hpass⟩ := he
  rw [hpass.sub_gone.1]
  exact hchain.sub_blankRead hren hplan (nil_append _).symm hr hknown hp

end Entered

/-! ## What is counted -/

/-- The report about a load that finds no value. -/
def undefinedRead (x : Body) (p : InstId × VarId) : Event := .undefinedRead p.2 (x.var p.2).origin p.1

structure Counted (x : Body) (warn : Bool) (lost : List (InstId × VarId)) (t t' : Trace Renaming) : Prop where
  warnings : Event.warnings t'.log = Event.warnings t.log ++ if warn then lost.map (undefinedRead x) else []
  undefined : t'.state.undefined = t.state.undefined + lost.length

section Counted

variable {t t₁ t' : Trace Renaming} {warn reachable : Bool} {lost lost' : List (InstId × VarId)}

lemma Counted.of_eq (hlog : t'.log = t.log) (hundefined : t'.state.undefined = t.state.undefined) :
    Counted x warn [] t t' :=
  ⟨by simp [Event.warnings, hlog], hundefined⟩

lemma Counted.trans (hc : Counted x warn lost t t₁) (hc' : Counted x warn lost' t₁ t') :
    Counted x warn (lost ++ lost') t t' := by
  refine ⟨?_, ?_⟩
  · rw [hc'.warnings, hc.warnings, append_assoc]
    split <;> simp
  · rw [hc'.undefined, hc.undefined, length_append, Nat.add_assoc]

lemma Counted.of_forM {γ : Type} {f : γ → Traced Renaming Unit} {l : List γ} (hrun : l.forM f t = .ok () t')
    (hstep : ∀ c ∈ l, ∀ t t', f c t = .ok () t' → Counted x warn [] t t') : Counted x warn [] t t' :=
  forM_induction (P := fun u => Counted x warn [] t u) hrun (.of_eq rfl rfl)
    fun c hc u u' _ hu hrun => hu.trans (hstep c hc u u' hrun)

lemma Counted.of_edit {α : Type} {e : Edit α} {c : α} (hrun : edit e t = .ok c t') : Counted x warn [] t t' := by
  obtain ⟨body, -, rfl⟩ := edit_iff.1 hrun
  exact .of_eq rfl rfl

lemma Counted.of_store (hrun : store b i v t = .ok () t') : Counted x warn [] t t' := by
  obtain ⟨u, us, w, t₁, -, hcoerce, hconclude⟩ := store_iff.1 hrun
  have hfirst : Counted x warn [] t t₁ := by
    replace hcoerce := getState_bind_iff.1 hcoerce
    split at hcoerce
    · exact .of_edit hcoerce
    · obtain ⟨-, rfl⟩ := pure_iff.1 hcoerce
      exact .of_eq rfl rfl
  obtain ⟨⟨⟩, t₂, hpush, hconclude⟩ := bind_iff.1 hconclude
  obtain ⟨⟨⟩, t₃, hremove, hcount⟩ := bind_iff.1 hconclude
  obtain rfl := modifyState_iff.1 hpush
  obtain rfl := modifyState_iff.1 hcount
  have hsecond : Counted x warn [] _ t₃ := .of_edit hremove
  exact (hfirst.trans ⟨hsecond.warnings, hsecond.undefined⟩).trans (.of_eq rfl rfl)

lemma Counted.of_load (hvar : t.state.body.var v = x.var v) (hrun : load plan reachable i v t = .ok () t') :
    Counted x (plan.warnOnUndefined && reachable) (if (t.state.current? v).isSome then [] else [(i, v)]) t t' := by
  obtain ⟨w, t₁, hread, hrun⟩ := bind_iff.1 hrun
  obtain ⟨⟨⟩, t₂, hedit, hcount⟩ := bind_iff.1 hrun
  obtain rfl := modifyState_iff.1 hcount
  have hlater : Counted x (plan.warnOnUndefined && reachable) [] t₁
      ⟨{ t₂.state with loads := t₂.state.loads + 1 }, t₂.log⟩ :=
    (Counted.of_edit hedit).trans (.of_eq rfl rfl)
  suffices hfirst : Counted x (plan.warnOnUndefined && reachable)
      (if (t.state.current? v).isSome then [] else [(i, v)]) t t₁ by
    simpa using hfirst.trans hlater
  replace hread := getState_bind_iff.1 hread
  cases hcurrent : t.state.current? v with
  | some value =>
    rw [hcurrent] at hread
    obtain ⟨-, rfl⟩ := pure_iff.1 hread
    exact .of_eq rfl rfl
  | none =>
    rw [hcurrent] at hread
    obtain ⟨⟨⟩, t₃, hcount, hread⟩ := bind_iff.1 hread
    obtain rfl := modifyState_iff.1 hcount
    split at hread
    · next hwarn =>
      obtain ⟨⟨⟩, t₄, hreport, hread⟩ := bind_iff.1 hread
      obtain rfl := report_iff.1 hreport
      obtain ⟨-, rfl⟩ := pure_iff.1 hread
      refine ⟨?_, rfl⟩
      simp [Event.warnings, hwarn, Event.isUndefinedRead, undefinedRead, hvar]
    · next hwarn =>
      obtain ⟨-, rfl⟩ := pure_iff.1 hread
      exact ⟨by simp [Event.warnings, hwarn], rfl⟩

lemma Counted.of_access (hr : Renames x plan r t.state.body) (m : Mirrors plan h t.state)
    (hknown : Agrees plan known h) (hkind : t.state.body.kind i = x.kind i)
    (hrun : access plan reachable b i t = .ok () t') : Counted x (plan.warnOnUndefined && reachable)
      ((blankRead? x plan.accesses known i).map (i, ·)).toList t t' := by
  rw [access_iff, hkind] at hrun
  rw [blankRead?]
  cases hk : x.kind i
  case storeVar v =>
    simp only [hk] at hrun
    obtain ⟨-, hrun⟩ := hrun
    split at hrun
    · exact .of_store hrun
    · exact hrun ▸ .of_eq rfl rfl
  case loadVar v =>
    simp only [hk] at hrun
    obtain ⟨-, hrun⟩ := hrun
    split at hrun
    · next hv =>
      have hload := Counted.of_load (x := x) (hr.graph.var v) hrun
      rw [m.current?, ← hknown v hv] at hload
      cases hfalse : known v <;> simpa [hfalse, hv] using hload
    · next hv => simpa [hv] using hrun ▸ Counted.of_eq rfl rfl
  all_goals
    simp only [hk] at hrun
    exact hrun ▸ .of_eq rfl rfl

lemma Counted.of_accesses (hplan : Headed x plan) (hr : Renames x plan r t.state.body)
    (m : Mirrors plan h t.state) (hrest : r.rest b = js ++ is) (his : ∀ i ∈ is, x.hasInst i)
    (hknown : Agrees plan known h)
    (hrun : is.forM (access plan reachable b) t = .ok () t') :
    Counted x (plan.warnOnUndefined && reachable) (blankReads x plan.accesses known is) t t' := by
  induction is generalizing t r h js known with
  | nil =>
    obtain ⟨-, rfl⟩ := pure_iff.1 hrun
    exact .of_eq rfl rfl
  | cons i is ih =>
    obtain ⟨⟨⟩, t₁, hfirst, hrun⟩ := bind_iff.1 hrun
    have hi : i ∈ r.rest b := by simp [hrest]
    obtain ⟨r₁, h₁, step, m₁⟩ := access_sound hplan hr m hi hfirst
    obtain ⟨τ, js₁, hadv, hrest₁, -⟩ := step.advance hr hplan hrest
    have hkind := hr.kind_eq (his i (by simp)) (hr.lookup_of_rest hplan hi)
    exact (Counted.of_access hr m hknown hkind hfirst).trans
      (ih hadv.renames m₁ hrest₁ (fun j hj => his j (by simp [hj])) (step.agrees hknown) hrun)

lemma Counted.of_pushPhis (hrun : pushPhis plan b is t = .ok () t') : Counted x warn [] t t' := by
  refine .of_forM hrun fun φ _ t t' hstep => ?_
  cases hφ : plan.phis.lookup φ with
  | some v =>
    rw [hφ] at hstep
    obtain rfl := modifyState_iff.1 hstep
    exact .of_eq rfl rfl
  | none =>
    rw [hφ] at hstep
    obtain ⟨-, rfl⟩ := pure_iff.1 hstep
    exact .of_eq rfl rfl

lemma Counted.of_passOn (hrun : passOn plan b succs t = .ok () t') : Counted x warn [] t t' := by
  refine .of_forM hrun fun c _ t t' hstep => ?_
  replace hstep := getState_bind_iff.1 hstep
  refine .of_forM hstep fun φ _ t t' hpass => ?_
  cases hφ : plan.phis.lookup φ with
  | some v =>
    obtain ⟨w, -, -, -, -, rfl⟩ := (passTo_eq_ok_iff hφ).1 hpass
    exact .of_eq rfl rfl
  | none =>
    obtain rfl := (passTo_of_none hφ).1 hpass
    exact .of_eq rfl rfl

lemma Counted.of_enter (hplan : Headed x plan) (hr : Renames x plan r t.state.body)
    (m : Mirrors plan h t.state) (hrest : r.rest b = x.nonPhis b)
    (hknown : Agrees plan known (headings plan b (x.phis b) ++ h))
    (hrun : enter plan reachable b t = .ok () t') : Counted x (plan.warnOnUndefined && reachable)
      (blankReads x plan.accesses known (x.nonPhis b)) t t' := by
  obtain ⟨t₁, hpush, hbody, m₁, hiff⟩ := enter_iff_of_renames hplan hr m reachable
  obtain ⟨t₂, haccess, hpass⟩ := (hiff t').1 hrun
  rw [hrest] at haccess
  have hstart : r.rest b = [] ++ x.nonPhis b := hrest
  have hcounted := Counted.of_accesses hplan (hbody ▸ hr) m₁ hstart (fun i => hplan.hasInst_of_nonPhis) hknown haccess
  simpa using ((Counted.of_pushPhis hpush).trans hcounted).trans (.of_passOn hpass)

end Counted

/-! ## Along the walk -/

def Heads (x : Body) (plan : RenamingPlan) (b : BlockId) (v : VarId) : Prop :=
  ∃ φ ∈ x.phis b, plan.phis.lookup φ = some v

def Assigns (x : Body) (plan : RenamingPlan) (b : BlockId) (v : VarId) : Prop :=
  Heads x plan b v ∨ ∃ i ∈ x.nonPhis b, x.kind i = .storeVar v

def AssignedAbove (x : Body) (plan : RenamingPlan) (entry b : BlockId) (v : VarId) : Prop :=
  ∃ a, StrictlyDominates (Edge x.succs) entry a b ∧ Assigns x plan a v

def Given (x : Body) (plan : RenamingPlan) (entry b : BlockId) (v : VarId) : Prop :=
  Heads x plan b v ∨ AssignedAbove x plan entry b v

def blankReadsOf (x : Body) (plan : RenamingPlan) (known : BlockId → VarId → Bool) (b : BlockId) :
    List (InstId × VarId) :=
  blankReads x plan.accesses (known b) (x.nonPhis b)

lemma nodup_flatMap_blankReadsOf {known : BlockId → VarId → Bool}
    (hx : x.Attached) (hbs : bs.Nodup) : (bs.flatMap (blankReadsOf x plan known)).Nodup := by
  refine nodup_flatMap.2 ⟨fun b _ => ?_, hbs.imp fun {b c} hne p hb hc => hne ?_⟩
  · exact .of_map _ (((hx.nodup b).sublist (dropWhile_sublist _)).sublist blankReads_sublist)
  · have hmem : ∀ a, p ∈ blankReadsOf x plan known a → p.1 ∈ x.instsOf a := fun a ha =>
      Body.mem_of_mem_nonPhis (blankReads_sublist.subset (mem_map_of_mem ha))
    exact hx.eq_of_mem (hmem b hb) (hmem c hc)

/-- Renaming in the course of a walk. The blocks of `seen` have been renamed, and an undefined value
stands for those of their loads that found no value. In the open blocks the variables that have a value
are those that get one there or above. -/
structure Survey (x : Body) (plan : RenamingPlan) (entry : BlockId) (known : BlockId → VarId → Bool)
    (opened seen : List BlockId) (out : BlockId → Values) (r : Record) (h : Pushes) (s : Renaming) : Prop where
  toured : Toured x plan entry (fun _ => none) (fun _ _ => none) [] seen r s.body
  subset : ∀ b ∈ opened, b ∈ seen
  stacked : Stacked out opened h
  mirrors : Mirrors plan h s
  assigned : ∀ b ∈ opened, ∀ v, plan.accesses.isPromotable v →
    ((out b v).isSome ↔ Assigns x plan b v ∨ AssignedAbove x plan entry b v)
  untouched : Untouched r
  undefined : ∀ b ∈ seen, ∀ p ∈ blankReadsOf x plan known b, r.sub (.inst p.1) = .undef (x.var p.2).ty

section Survey

variable {known : BlockId → VarId → Bool} {opened seen bs : List BlockId} {out : BlockId → Values}
  {s : Renaming} {t t' : Trace Renaming} {reachable : Bool}

lemma Survey.initial (hplan : Headed x plan) (hbody : s.body = x) (hm : Mirrors plan [] s) :
    Survey x plan entry known [] [] (fun _ _ => none) (.initial x) [] s where
  toured := by
    rw [hbody]
    exact .initial hplan
  subset := by simp
  stacked := .nil
  mirrors := hm
  assigned := by simp
  untouched _ _ := rfl
  undefined := by simp

section

variable (S : Survey x plan entry known opened seen out r h s)
include S

lemma Survey.isSome_current_iff (hbelow : Below x entry opened b) (hv : plan.accesses.isPromotable v) :
    (current h v).isSome ↔ AssignedAbove x plan entry b v := by
  cases S.stacked with
  | nil => simp [AssignedAbove, hbelow.strict]
  | @cons p _ _ _ _ _ now _ =>
    rw [now, S.assigned p (by simp) v hv]
    simp only [AssignedAbove, hbelow.strict, head?_cons, Option.some.injEq, exists_eq_left', or_and_right,
      exists_or, exists_eq_left]

lemma Survey.agrees (hknown : ∀ b v, known b v ↔ Given x plan entry b v) (hbelow : Below x entry opened b) :
    Agrees plan (known b) (headings plan b (x.phis b) ++ h) := by
  intro v hv
  rw [Bool.eq_iff_iff, hknown, Given]
  rcases current_headings plan b (x.phis b) h v with ⟨φ, hφ, hlookup, heq⟩ | ⟨hnone, heq⟩
  · simp [heq, show Heads x plan b v from ⟨φ, hφ, hlookup⟩]
  · rw [heq, S.isSome_current_iff hbelow hv]
    refine or_iff_right ?_
    rintro ⟨φ, hφ, hlookup⟩
    exact hnone φ hφ hlookup

end

section Enter

variable (S : Survey x plan entry known opened seen out r h t.state) (hplan : Headed x plan)
  (hknown : ∀ b v, known b v ↔ Given x plan entry b v) (hb : b ∉ seen) (hbelow : Below x entry opened b)

include S hplan hknown hb hbelow

lemma Survey.enter (hrun : enter plan reachable b t = .ok () t') : (∃ out' r' h',
      Survey x plan entry known (b :: opened) (seen ++ [b]) out' r' h' t'.state) ∧
      Counted x (plan.warnOnUndefined && reachable) (blankReadsOf x plan known b) t t' := by
  have T := S.toured
  have hagrees := S.agrees hknown hbelow
  have hrest := T.rest b (by simp) hb
  refine ⟨?_, .of_enter hplan T.renames S.mirrors hrest hagrees hrun⟩
  have hopen : b ∉ opened := fun hmem => hb (S.subset b hmem)
  obtain ⟨r', h', he, m'⟩ := enter_sound hplan T.renames S.mirrors hrun
  obtain ⟨top, htop, hown⟩ := he.pushes
  refine ⟨update out b (current h'), r', h', T.pass hplan (by simp) he, fun c hc => ?_, ?_,
    m', fun c hc v hv => ?_, he.untouched S.untouched, fun c hc p hp => ?_⟩
  · rcases mem_cons.1 hc with rfl | hc
    · simp
    · exact mem_append_left _ (S.subset c hc)
  · rw [htop]
    refine .cons hown (fun d hd heq => hopen (heq ▸ S.stacked.owner d hd)) ?_ (S.stacked.update hopen)
    rw [update_self]
  · rcases mem_cons.1 hc with rfl | hc
    · -- After the phis the variables with a value are the given ones; the rest is by stores.
      obtain ⟨r₁, y₁, hchain, -⟩ := he
      rw [hrest] at hchain
      rw [update_self, hchain.isSome_current_iff hv, ← hagrees v hv, hknown, Given, Assigns]
      exact or_right_comm
    · have hne : c ≠ b := fun heq => hopen (heq ▸ hc)
      rw [update_of_ne hne]
      exact S.assigned c hc v hv
  · rcases mem_append.1 hc with hc | hc
    · exact he.sub_undef (S.undefined c hc p hp)
    · rw [mem_singleton.1 hc] at hp
      exact he.sub_blankRead T.renames hplan S.untouched hagrees (hrest ▸ hp)

end Enter

lemma Survey.exit (S : Survey x plan entry known (b :: opened) seen out r h s) :
    ∃ h', Survey x plan entry known opened seen out r h' (leave b s) := by
  have m := S.mirrors
  cases S.stacked with
  | cons own other _ rest =>
    exact ⟨_, S.toured, fun c hc => S.subset c (by simp [hc]), rest, m.leave own other,
      fun c hc => S.assigned c (by simp [hc]), S.untouched, S.undefined⟩

lemma Survey.follow {ch : BlockId → List BlockId} {capacity : Nat} {visits : List Visit}
    (run : Run ch capacity entry [] [] visits) (hplan : Headed x plan)
    (hknown : ∀ b v, known b v ↔ Given x plan entry b v) (hch : ∀ p c, c ∈ ch p → IsIdom (Edge x.succs) entry p c)
    (S : Survey x plan entry known [] [] out r h t.state)
    (hrun : visits.forM (follow plan) t = .ok () t') :
    (∃ out' r' h', Survey x plan entry known [] (entered visits) out' r' h' t'.state) ∧
      Counted x plan.warnOnUndefined ((entered visits).flatMap (blankReadsOf x plan known)) t t' := by
  refine (follow_ends (S := False) (P := fun opened seen u =>
    (∃ out r h, Survey x plan entry known opened seen out r h u.state) ∧ Counted x plan.warnOnUndefined
      (seen.flatMap (blankReadsOf x plan known)) t u) run hch ⟨⟨out, r, h, S⟩, .of_eq rfl rfl⟩ ?_ ?_).2 t' hrun
  · rintro b - opened seen u ⟨⟨out, r, h, S⟩, hcounted⟩ hseen hbelow
    refine ⟨False.elim, fun u' henter => ?_⟩
    obtain ⟨S', hcounted'⟩ := S.enter hplan hknown hseen hbelow henter
    exact ⟨S', by simpa using hcounted.trans (by simpa using hcounted')⟩
  · rintro b opened seen u ⟨⟨out, r, h, S⟩, hcounted⟩
    exact ⟨⟨out, r, S.exit⟩, hcounted.warnings, hcounted.undefined⟩

lemma Survey.unreached (hplan : Headed x plan) (hknown : ∀ b v, known b v ↔ Given x plan entry b v)
    (S : Survey x plan entry known [] seen out r h t.state) (hnodup : bs.Nodup)
    (hbs : ∀ b ∈ bs, b ∉ seen ∧ ¬Reachable (Edge x.succs) entry b)
    (hrun : bs.forM (Renaming.unreached plan) t = .ok () t') :
    (∃ out' r' h', Survey x plan entry known [] (seen ++ bs) out' r' h' t'.state) ∧
      Counted x false (bs.flatMap (blankReadsOf x plan known)) t t' := by
  refine (unreached_ends (S := False) (P := fun done u =>
    (∃ out r h, Survey x plan entry known [] (seen ++ done) out r h u.state) ∧ Counted x false
      (done.flatMap (blankReadsOf x plan known)) t u) hnodup ⟨⟨out, r, h, by simpa using S⟩, .of_eq rfl rfl⟩ ?_).2 t' hrun
  rintro b hmem done u ⟨⟨out, r, h, S⟩, hcounted⟩ hdone
  obtain ⟨hb, hout⟩ := hbs b hmem
  refine ⟨False.elim, fun u' henter => ?_⟩
  obtain ⟨⟨out₁, r₁, h₁, S₁⟩, hcounted'⟩ := S.enter hplan hknown (by simp [hb, hdone])
    (below_of_not fun _ ha => hout ha.2.1) henter
  have hboth : Counted x false ((done ++ [b]).flatMap (blankReadsOf x plan known)) t u' := by
    simpa using hcounted.trans (by simpa using hcounted')
  exact ⟨⟨out₁, r₁, by simpa using S₁.exit⟩, hboth.warnings, hboth.undefined⟩

end Survey

end Promotion

end MethodIR
