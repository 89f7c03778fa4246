import MethodIR.Proofs.Spilling

/-!
# Passing control on

An action that ends a block is lowered to a terminator that goes where the action goes
(`perform_ends`), to a segment that finds the stack where it expects it.
-/

namespace MethodIR.Lists

lemma bisectFrom_lt (key : Nat → Nat) (target base size : Nat) (h : 0 < size) :
    bisectFrom key target base size < base + size := by
  fun_induction bisectFrom key target base size with
  | case1 base size hsize => omega
  | case2 base size hsize half ih =>
    have hhalf : half = size / 2 := rfl
    have hlt := ih (by omega)
    simp only [dite_eq_ite] at hlt
    have hbase : (if target < key (base + half) then base else base + half) ≤ base + half := by
      split <;> omega
    omega

lemma bisect?_eq_some {key : Nat → Nat} {size target n : Nat}
    (h : bisect? key size target = some n) : n < size ∧ key n = target := by
  rw [bisect?] at h
  by_cases hsize : size = 0
  · simp [hsize] at h
  · simp only [hsize, if_false] at h
    split at h
    · next hkey =>
      obtain rfl := Option.some.inj h
      have := bisectFrom_lt key target 0 size (by omega)
      exact ⟨by omega, hkey⟩
    · simp at h

end MethodIR.Lists

namespace MethodIR

namespace Body.Machine

variable {V : Type} {s : Machine V} {choices : Nat → Nat} {yes no b : BlockId} {n : Nat}

def withChoices (s : Machine V) (choices : Nat → Nat) : Machine V := { s with choices }

lemma follow_yes (h : s.choices 0 ≠ 0) (hchoices : choices = fun n => s.choices (n + 1)) :
    s.follow (.branch yes no) = some ((s.withChoices choices).enter yes) := by
  rw [follow, if_pos h, hchoices]
  rfl

lemma follow_no (h : s.choices 0 = 0) (hchoices : choices = fun n => s.choices (n + 1)) :
    s.follow (.branch yes no) = some ((s.withChoices choices).enter no) := by
  rw [follow, if_neg (not_not.2 h), hchoices]
  rfl

end Body.Machine

end MethodIR

namespace MethodIR.Import

open List Success Body.Machine Traced Bytecode.Machine Body Option Scene
open Bytecode (Action Transfer)
open Bytecode.Machine (Exec)

variable {V α : Type} {c : Scene V} {s : State} {il : Bytecode.Machine V} {t t' : Trace State} {kind : Kind}
  {vs : List Value} {ty : Ty} {l : Label} {ws : List V} {log : Array Event} {u : Unit}

lemma segmentAt_read (offset : Nat) (log : Array Event) (n : Nat) (t : Trace State)
    (ht : segmentAt offset ⟨s, log⟩ = .ok n t) :
    t = ⟨s, log⟩ ∧ n < s.segments.size ∧ (s.segment n).start = offset := by
  simp only [segmentAt, getState_bind_iff] at ht
  cases hn : Lists.bisect? (fun n => (s.segment n).start) s.segments.size offset with
  | none => simp [hn, failAt] at ht
  | some k =>
    simp only [hn] at ht
    obtain ⟨rfl, rfl⟩ := pure_iff.1 ht
    exact ⟨rfl, Lists.bisect?_eq_some hn⟩

lemma mapM_segmentAt_read (ts : List Nat) : ∀ (log : Array Event) (ns : List Nat) (t : Trace State),
    ts.mapM segmentAt ⟨s, log⟩ = .ok ns t →
    t = ⟨s, log⟩ ∧ (∀ n ∈ ns, n < s.segments.size) ∧ ns.map (fun n => (s.segment n).start) = ts := by
  induction ts with
  | nil =>
    intro log ns t h
    obtain ⟨rfl, rfl⟩ := mapM_nil_iff.1 h
    exact ⟨rfl, by simp, rfl⟩
  | cons a ts ih =>
    intro log ns t h
    obtain ⟨n, t₁, hn, ns, hns, rfl⟩ := mapM_cons_iff.1 h
    obtain ⟨rfl, hlt, rfl⟩ := segmentAt_read a log n t₁ hn
    obtain ⟨rfl, hall, rfl⟩ := ih log ns t hns
    exact ⟨rfl, by simpa using ⟨hlt, hall⟩, rfl⟩

lemma fallThrough_read (log : Array Event) (n : Nat) (t : Trace State) (ht : fallThrough ⟨s, log⟩ = .ok n t) :
    t = ⟨s, log⟩ ∧ n = s.cursor.index + 1 ∧ s.cursor.index + 1 < s.segments.size := by
  simp only [fallThrough, getState_bind_iff] at ht
  split at ht
  · next hlt =>
    obtain ⟨rfl, rfl⟩ := pure_iff.1 ht
    exact ⟨rfl, rfl, hlt⟩
  · simp [fail, failAt] at ht

lemma entryBlock_iff : entryBlock n t = .ok b t' ↔ (t.state.segment n).entryBlock = b ∧ t = t' := by
  simp only [entryBlock, bind_iff, getState_iff, pure_iff]
  grind

lemma mapM_entryBlock {ns : List Nat} {bs : List BlockId} (h : ns.mapM entryBlock t = .ok bs t') :
    t' = t ∧ bs = ns.map fun n => (t.state.segment n).entryBlock := by
  induction ns generalizing bs with
  | nil =>
    obtain ⟨rfl, rfl⟩ := mapM_nil_iff.1 h
    exact ⟨rfl, rfl⟩
  | cons n ns ih =>
    obtain ⟨b, t₁, hb, bs, hbs, rfl⟩ := mapM_cons_iff.1 h
    obtain ⟨rfl, rfl⟩ := entryBlock_iff.1 hb
    obtain ⟨rfl, rfl⟩ := ih hbs
    exact ⟨rfl, rfl⟩

/-! ## What is handed over -/

section

variable (c s)

def Scene.EndsWith (kind : Kind) : Prop := kind.isTerminator ∧
    ∃ i, (s.body.instsOf c.block).getLast? = some i ∧ s.body.hasInst i ∧ s.body.kind i = kind

def Scene.Reaches (il : Bytecode.Machine V) (kind : Kind) (n : Nat) : Prop := n < s.segments.size ∧
    (c.ran s.body).follow kind = some (((c.ran s.body).withChoices il.choices).enter (s.segment n).entryBlock) ∧
    ∃ vars, s.Expects n vars ∧ c.Hold s il vars

/-- A block is complete, and control goes on as in the bytecode. -/
structure Scene.Ends (il : Bytecode.Machine V) (transfer : Transfer) : Prop where
  stand : c.At s { il with stack := [], choices := (c.ran s.body).choices }
  last : ∃ kind, c.EndsWith s kind ∧
    match transfer with
    | .next => c.Reaches s il kind (s.cursor.index + 1)
    | .goto t => ∃ n, (s.segment n).start = t ∧ c.Reaches s il kind n
    | .stop => (c.ran s.body).follow kind = some { c.ran s.body with halted := true } ∧
      il.choices = (c.ran s.body).choices

end

/-! ## Terminators -/

lemma vars_append_of_terminator (hat : c.At s il)
    (h : kind.isTerminator) : (c.ran (s.append kind vs ty).body).vars = (c.ran s.body).vars := by
  have hk := (append_kind s kind vs ty).1
  rw [Body.kind] at hk
  rw [hat.ran_append]
  simp only [exec, hk]
  split
  · simp [Kind.isTerminator] at h
  · simp [Kind.isTerminator] at h
  · split <;> rfl

lemma endsWith_append (hat : c.At s il) (h : kind.isTerminator) : c.EndsWith (s.append kind vs ty) kind := by
  refine ⟨h, s.nextInst, ?_, ?_, (append_kind s kind vs ty).1⟩
  · rw [hat.instsOf_append, getLast?_concat]
  · simp [hasInst, State.nextInst, State.append, insts_size_append]

lemma labelled_terminator (hk : kind.isTerminator) (h : match kind with
      | .branch .. => l = .branch
      | .switch ts _ => l = .switch ts.length
      | .ret => l = .ret
      | .throw again => l = .throw again
      | .resume => l = .resume
      | _ => False) : Labelled kind .void l := by
  refine ⟨?_, ?_⟩
  · rintro v rfl
    simp [Kind.isTerminator] at hk
  · intro body x hx _
    rw [label?, hx]
    cases kind <;> simp_all

lemma terminate_spec (h : emitVoid kind vs ⟨s, log⟩ = .ok u t) (hat : c.At s il)
    (hk : kind.isTerminator) (hlabel : Labelled kind .void l) (hvs : c.StandAll s vs ws) :
    c.Later s t.state ∧ c.EndsWith t.state kind ∧ c.At t.state { il with effects := ⟨l, ws⟩ :: il.effects } ∧
      (c.ran t.state.body).vars = (c.ran s.body).vars ∧
      t.state.segments = s.segments ∧ t.state.cursor = s.cursor := by
  obtain ⟨v, h⟩ := discard_iff.1 h
  obtain ⟨hlater, r, il', hemit, hat', -⟩ := sim_emit hlabel hvs log v t h il hat
  obtain ⟨-, rfl⟩ := Prod.mk.inj (some.inj hemit)
  obtain ⟨-, -, -, -, -, rfl⟩ := emit_eq_ok h
  exact ⟨hlater, endsWith_append hat hk, hat', vars_append_of_terminator hat hk, rfl, rfl⟩

def SimEnd (c : Scene V) (s : State) (x : M Unit) (y : Exec V Transfer) : Prop :=
  ∀ log u t, x ⟨s, log⟩ = .ok u t → ∀ il, c.At s il →
    c.Later s t.state ∧ ∃ transfer il', y il = some (transfer, il') ∧ c.Ends t.state il' transfer

lemma Sim.bindEnd {β : Type} {x : M α} {y : Exec V β} {R : State → α → β → Prop}
    {f : α → M Unit} {g : β → Exec V Transfer} (hx : Sim c s x y R)
    (hf : ∀ s' a r, c.Later s s' → R s' a r → SimEnd c s' (f a) (g r)) : SimEnd c s (x >>= f) (y >>= g) := by
  intro log u t h il hil
  obtain ⟨a, t₁, h₁, h₂⟩ := bind_iff.1 h
  obtain ⟨hlater, r, il₁, hy, hil₁, hR⟩ := hx log a t₁ h₁ il hil
  obtain ⟨hlater', transfer, il', hg, hends⟩ := hf t₁.state a r hlater hR t₁.log u t h₂ il₁ hil₁
  refine ⟨hlater.trans hlater', transfer, il', ?_, hends⟩
  change (y il).bind _ = _
  rw [hy]
  exact hg

lemma SimEnd.read {x : M α} {f : α → M Unit} {y : Exec V Transfer} {P : α → Prop}
    (hx : ∀ log a t, x ⟨s, log⟩ = .ok a t → t = ⟨s, log⟩ ∧ P a)
    (hf : ∀ a, P a → SimEnd c s (f a) y) : SimEnd c s (x >>= f) y := by
  intro log u t ht il hil
  obtain ⟨a, t₁, h₁, h₂⟩ := bind_iff.1 ht
  obtain ⟨rfl, hP⟩ := hx log a t₁ h₁
  exact hf a hP log u t h₂ il hil

lemma finish_ends (h : emitVoid kind vs ⟨s, log⟩ = .ok u t) (hat : c.At s { il with stack := [] })
    (hk : kind = .ret ∨ (∃ again, kind = .throw again) ∨ kind = .resume)
    (hlabel : Labelled kind .void l) (hvs : c.StandAll s vs ws) :
    c.Later s t.state ∧ ∃ transfer il',
      finish c.I l ws il = some (transfer, il') ∧ c.Ends t.state il' transfer := by
  have hterm : kind.isTerminator := by
    rcases hk with rfl | ⟨_, rfl⟩ | rfl <;> rfl
  obtain ⟨hlater, hends, hat', -⟩ := terminate_spec h hat hterm hlabel hvs
  refine ⟨hlater, .stop, { il with effects := ⟨l, ws⟩ :: il.effects }, rfl, ?_, kind, hends, ?_, hat'.choices⟩
  · have hchoices := hat'.choices
    simp only at hchoices
    rw [← hchoices]
    exact hat'
  · rcases hk with rfl | ⟨_, rfl⟩ | rfl <;> rfl

lemma simEnd_drop (hk : kind = .ret ∨ (∃ again, kind = .throw again) ∨ kind = .resume)
    (hlabel : Labelled kind .void l) (hvs : c.StandAll s vs ws) :
    SimEnd c s (do setStack []; emitVoid kind vs) (finish c.I l ws) := by
  intro log u t h il hil
  obtain ⟨_, t₁, hset, hemit⟩ := bind_iff.1 h
  obtain ⟨hlater, _, il', hclear, hat, -⟩ := sim_setStack_nil log _ t₁ hset il hil
  obtain ⟨-, rfl⟩ := Prod.mk.inj (some.inj hclear)
  obtain ⟨hlater', hends⟩ := finish_ends hemit hat hk hlabel (hvs.later hlater)
  exact ⟨hlater.trans hlater', hends⟩

lemma simEnd_ret (hvs : c.StandAll s vs ws) : SimEnd c s (do
        let rest := (← getState).cursor.stack
        unless rest.isEmpty do fail (.leftOver rest.length)
        emitVoid .ret vs)
      (do
        unless (← get).stack.isEmpty do failure
        finish c.I .ret ws) := by
  intro log u t h il hil
  simp only [getState_bind_iff] at h
  cases hstack : s.cursor.stack with
  | cons v rest => simp [hstack, fail, failAt] at h
  | nil =>
    have hnil : il.stack = [] := by rw [hil.stack, hstack, map_nil]
    have hsame : il = { il with stack := [] } := by rw [← hnil]
    simp only [hstack] at h
    rw [hsame] at hil
    obtain ⟨hlater, transfer, il', hfinish, hends⟩ := finish_ends h hil (.inl rfl) (labelled_terminator rfl rfl) hvs
    refine ⟨hlater, transfer, il', ?_, hends⟩
    rw [← hfinish]
    change (if il.stack.isEmpty then _ else _ : Exec V Transfer) il = _
    rw [hnil]
    rfl

lemma Scene.Reaches.of_expects (il₀ : Bytecode.Machine V) (s₁ : State)
    (hn : n < s.segments.size) (hfollow : (c.ran s.body).follow kind =
      some (((c.ran s.body).withChoices il.choices).enter (s.segment n).entryBlock))
    (hvars : (c.ran s.body).vars = (c.ran s₁.body).vars) (hstack : il.stack = il₀.stack)
    (hsegments : s.segments = s₁.segments)
    (h : ∃ vars, s₁.Expects n vars ∧ c.Hold s₁ il₀ vars) : c.Reaches s il kind n := by
  obtain ⟨vars, hexpects, hhold⟩ := h
  refine ⟨hn, hfollow, vars, ?_, ?_⟩
  · rw [State.Expects, State.segment, hsegments]
    exact hexpects
  · rw [Scene.Hold, hvars, hstack]
    exact hhold

lemma passTo_ends {kind : BlockId → Kind}
    (h : passTo kind n ⟨s, log⟩ = .ok u t) (hat : c.At s il) (hkind : kind = .jump ∨ kind = .leave)
    (hn : n < s.segments.size) : c.Later s t.state ∧ c.At t.state { il with stack := [] } ∧
      ∃ b, c.EndsWith t.state (kind b) ∧ c.Reaches t.state il (kind b) n := by
  simp only [passTo, emitVoid, bind_iff, entryBlock_iff, discard_iff] at h
  obtain ⟨_, t₁, hspill, _, _, ⟨rfl, rfl⟩, _, hemit⟩ := h
  obtain ⟨hlater, hat₁, hexpects⟩ := spill_spec hspill hat (by simpa using hn)
  obtain ⟨-, -, -, -, -, rfl⟩ := emit_eq_ok hemit
  have hk : (∃ b, kind (t₁.state.segment n).entryBlock = .jump b) ∨
      ∃ b, kind (t₁.state.segment n).entryBlock = .leave b := by
    rcases hkind with rfl | rfl
    · exact .inl ⟨_, rfl⟩
    · exact .inr ⟨_, rfl⟩
  have hterm : (kind (t₁.state.segment n).entryBlock).isTerminator := by
    rcases hkind with rfl | rfl <;> rfl
  obtain ⟨hat', hran⟩ := hat₁.append_silent [] .void hk
  refine ⟨hlater.trans hat₁.later_append, hat', _, endsWith_append hat₁ hterm, ?_⟩
  refine .of_expects il t₁.state ?_ ?_ (congrArg _ hran) rfl rfl (hexpects n (by simp))
  · change n < t₁.state.segments.size
    rw [hlater.segments.size]
    exact hn
  · have hchoices : il.choices = (c.ran t₁.state.body).choices := hat₁.choices
    change (c.ran (t₁.state.append _ [] .void).body).follow _ =
      some (((c.ran (t₁.state.append _ [] .void).body).withChoices _).enter _)
    rw [hran, hchoices]
    rcases hkind with rfl | rfl <;> rfl

def chose (il : Bytecode.Machine V) (l : Label) (ws : List V) : Bytecode.Machine V :=
  { il with effects := ⟨l, ws⟩ :: il.effects, choices := fun n => il.choices (n + 1) }

lemma choice_spec (ws : List V) (l : Label) (h : emitVoid kind vs ⟨s, log⟩ = .ok u t)
    (hat : c.At s { il with stack := [] }) (hk : kind.isTerminator)
    (hlabel : Labelled kind .void l) (hvs : c.StandAll s vs ws) :
    c.Later s t.state ∧ t.state.segments = s.segments ∧
      c.At t.state { chose il l ws with stack := [], choices := (c.ran t.state.body).choices } ∧
      c.EndsWith t.state kind ∧
      ∀ n, n < s.segments.size → (∃ vars, s.Expects n vars ∧ c.Hold s il vars) →
        (∀ ir : Body.Machine V, ir.choices = il.choices → ir.follow kind =
          some ((ir.withChoices (chose il l ws).choices).enter (s.segment n).entryBlock)) →
        c.Reaches t.state (chose il l ws) kind n := by
  obtain ⟨hlater, hends, hat', hvars, hsegments, -⟩ := terminate_spec h hat hk hlabel hvs
  have hchoices : il.choices = (c.ran t.state.body).choices := hat'.choices
  refine ⟨hlater, hsegments, ?_, hends, fun n hn hexpects hfollow => ?_⟩
  · rw [← hchoices]
    exact hat'
  · refine .of_expects il s (hsegments ▸ hn) ?_ hvars rfl hsegments hexpects
    rw [State.segment, hsegments]
    exact hfollow _ hchoices.symm

lemma simEnd_branchOn {v : Value} {w : V × Ty} (hv : c.Stands s v w) (target : Nat)
    (isNegated : Bool) : SimEnd c s (branchOn v target isNegated)
      (Bytecode.Machine.branchOn c.I w.1 (some target) isNegated) := by
  intro log u t h il hat
  simp only [branchOn, bind_iff, entryBlock_iff] at h
  obtain ⟨taken, _, hseg, next, _, hfall, _, t₁, hspill, _, _, ⟨rfl, rfl⟩, _, _, ⟨rfl, rfl⟩, hemit⟩ := h
  obtain ⟨rfl, htaken, rfl⟩ := segmentAt_read _ _ _ _ hseg
  obtain ⟨rfl, rfl, hnext⟩ := fallThrough_read _ _ _ hfall
  obtain ⟨hlater, hat₁, hexpects⟩ := spill_spec hspill hat (by simpa using ⟨htaken, hnext⟩)
  have hsize := hlater.segments.size
  obtain ⟨hlater', hsegments, hat', hends, hreaches⟩ := choice_spec [w.1] .branch hemit hat₁
    (by cases isNegated <;> rfl) (by cases isNegated <;> exact labelled_terminator rfl rfl)
    (.cons (hv.later hlater) (standAll_nil _))
  have hindex := (hlater.trans hlater').index
  have hstart := ((hlater.trans hlater').segments.same taken).1
  have htarget := hreaches taken (hsize ▸ htaken) (hexpects taken (by simp))
  have hother := hreaches (s.cursor.index + 1) (hsize ▸ hnext) (hexpects _ (by simp))
  have hrun : Bytecode.Machine.branchOn c.I w.1 (some (s.segment taken).start) isNegated il =
      some (if decide (il.choices 0 ≠ 0) ≠ isNegated then .goto (s.segment taken).start else .next,
        chose il .branch [w.1]) := rfl
  refine ⟨hlater.trans hlater', _, _, hrun, hat', _, hends, ?_⟩
  rw [← hstart]
  by_cases hzero : il.choices 0 = 0
  · rw [show decide (il.choices 0 ≠ 0) = false by simp [hzero]]
    cases isNegated with
    | false =>
      rw [hindex]
      exact hother fun ir hir => follow_no (hir ▸ hzero) (by rw [hir]; rfl)
    | true => exact ⟨taken, rfl, htarget fun ir hir => follow_no (hir ▸ hzero) (by rw [hir]; rfl)⟩
  · rw [show decide (il.choices 0 ≠ 0) = true by simp [hzero]]
    cases isNegated with
    | false => exact ⟨taken, rfl, htarget fun ir hir => follow_yes (hir ▸ hzero) (by rw [hir]; rfl)⟩
    | true =>
      rw [hindex]
      exact hother fun ir hir => follow_yes (hir ▸ hzero) (by rw [hir]; rfl)

lemma simEnd_goto {kind : BlockId → Kind} (hkind : kind = .jump ∨ kind = .leave) (target : Nat) :
    SimEnd c s (do passTo kind (← segmentAt target)) (pure (.goto target)) := by
  refine .read (segmentAt_read target) fun n hn => ?_
  intro log u t h il hat
  obtain ⟨hlt, rfl⟩ := hn
  obtain ⟨hlater, hat', b, hends, hreaches⟩ := passTo_ends h hat hkind hlt
  refine ⟨hlater, _, il, rfl, ?_, _, hends, n, (hlater.segments.same n).1, hreaches⟩
  have hchoices : il.choices = (c.ran t.state.body).choices := hat'.choices
  rw [← hchoices]
  exact hat'

lemma simEnd_fallThrough : SimEnd c s (do passTo .jump (← fallThrough)) (pure .next) := by
  refine .read fallThrough_read fun n hn => ?_
  intro log u t h il hat
  obtain ⟨rfl, hlt⟩ := hn
  obtain ⟨hlater, hat', b, hends, hreaches⟩ := passTo_ends h hat (.inl rfl) hlt
  refine ⟨hlater, _, il, rfl, ?_, _, hends, ?_⟩
  · have hchoices : il.choices = (c.ran t.state.body).choices := hat'.choices
    rw [← hchoices]
    exact hat'
  · rw [hlater.index]
    exact hreaches

lemma simEnd_switch (op : Opcode) (ts : List Nat) : SimEnd c s (perform op (.switch ts))
    (Bytecode.Machine.perform c.I c.m (.switch ts)) := by
  refine sim_pop.bindEnd fun s v w _ hv => ?_
  refine .read (mapM_segmentAt_read ts) fun ns hns => ?_
  refine .read fallThrough_read fun next hnext => ?_
  intro log u t h il hat
  obtain ⟨hns, rfl⟩ := hns
  obtain ⟨rfl, hnext⟩ := hnext
  simp only [bind_iff, entryBlock_iff] at h
  obtain ⟨_, t₁, hspill, bs, _, hbs, _, _, ⟨rfl, rfl⟩, hemit⟩ := h
  obtain ⟨rfl, rfl⟩ := mapM_entryBlock hbs
  obtain ⟨hlater, hat₁, hexpects⟩ := spill_spec hspill hat fun n hn => by
    rcases mem_append.1 hn with hn | hn
    · exact hns n hn
    · rw [mem_singleton.1 hn]
      exact hnext
  have hsize := hlater.segments.size
  obtain ⟨hlater', hsegments, hat', hends, hreaches⟩ := choice_spec [w.1] (.switch ns.length) hemit hat₁
    rfl (labelled_terminator rfl (by simp)) (.cons (hv.later hlater) (standAll_nil _))
  have hindex := (hlater.trans hlater').index
  have hrun : ∀ f : Nat → Exec V Transfer, (do
        discard <| Bytecode.Machine.emit c.I (.switch (ns.map fun n => (s.segment n).start).length) [w.1]
        f (← Bytecode.Machine.choose)) il =
      f (il.choices 0) (chose il (.switch ns.length) [w.1]) := by
    intro f
    rw [length_map]
    rfl
  cases hchoice : ns[il.choices 0]? with
  | none =>
    refine ⟨hlater.trans hlater', .next, _, (hrun _).trans ?_, hat', _, hends, ?_⟩
    · rw [getElem?_map, hchoice]
      rfl
    change c.Reaches _ _ _ _
    rw [hindex]
    refine hreaches _ (hsize ▸ hnext) (hexpects _ (by simp)) fun ir hir => ?_
    rw [follow, hir, getD_eq_getElem?_getD, getElem?_map, hchoice]
    rfl
  | some n =>
    have hn : n ∈ ns := mem_of_getElem? hchoice
    refine ⟨hlater.trans hlater', .goto (s.segment n).start, _, (hrun _).trans ?_, hat', _, hends,
      n, ((hlater.trans hlater').segments.same n).1, ?_⟩
    · rw [getElem?_map, hchoice]
      rfl
    refine hreaches n (hsize ▸ hns n hn) (hexpects n (by simp [hn])) fun ir hir => ?_
    rw [follow, hir, getD_eq_getElem?_getD, getElem?_map, hchoice]
    rfl

/-- An action that passes control on is lowered to a terminator that passes it on alike. -/
lemma perform_ends (op : Opcode) (a : Action) (h : passesControl a) :
    SimEnd c s (perform op a) (Bytecode.Machine.perform c.I c.m a) := by
  cases a with
  | jump t => exact simEnd_goto (.inl rfl) t
  | leave t => exact sim_setStack_nil.bindEnd fun _ _ _ _ _ => simEnd_goto (.inr rfl) t
  | branch t isNegated =>
    refine sim_pop.bindEnd fun s v w _ hv => ?_
    cases t with
    | none =>
      intro log u t h
      simp [branchTarget, fail, failAt] at h
    | some t => exact simEnd_branchOn hv t isNegated
  | compareBranch o t =>
    change SimEnd c s (Import.compare o >>= fun v => branchTarget op t >>= fun t => branchOn v t false) _
    rw [compare_bind]
    refine sim_pop.bindEnd fun _ right r _ hr => ?_
    refine sim_pop.bindEnd fun _ left l hlater hl => ?_
    refine (sim_emit (labelled_of_plain _ rfl)
      (.cons hl (.cons (hr.later hlater) (standAll_nil _)))).bindEnd fun _ v w _ hv => ?_
    cases t with
    | none =>
      intro log u t h
      simp [branchTarget, fail, failAt] at h
    | some t => exact simEnd_branchOn hv t false
  | switch ts => exact simEnd_switch op ts
  | ret =>
    refine .read (P := fun s' => s' = s) (fun log a t ht => ?_) fun s' hs' => ?_
    · obtain ⟨rfl, rfl⟩ := getState_iff.1 ht
      exact ⟨rfl, rfl⟩
    · subst hs'
      intro log u t h il hat
      have hret := hat.framed.returnTy
      by_cases hvoid : c.m.sig.ret.isVoid
      · rw [hret, hvoid] at h
        have hsim := simEnd_ret (c := c) (s := s') (standAll_nil _)
        obtain ⟨hlater, transfer, il', hrun, hends⟩ := hsim log u t h il hat
        refine ⟨hlater, transfer, il', ?_, hends⟩
        rw [← hrun, Bytecode.Machine.perform, hvoid]
        rfl
      · rw [Bool.not_eq_true] at hvoid
        rw [hret, hvoid] at h
        have hsim : SimEnd c s' (pop >>= fun v => _) (Bytecode.Machine.pop >>= fun w => _) :=
          sim_pop.bindEnd fun _ v w _ hv => simEnd_ret (.cons hv (standAll_nil _))
        obtain ⟨hlater, transfer, il', hrun, hends⟩ := hsim log u t h il hat
        refine ⟨hlater, transfer, il', ?_, hends⟩
        rw [← hrun, Bytecode.Machine.perform, hvoid]
        rfl
  | throw =>
    refine sim_pop.bindEnd fun _ v w _ hv => ?_
    exact simEnd_drop (.inr (.inl ⟨_, rfl⟩)) (labelled_terminator rfl rfl) (.cons hv (standAll_nil _))
  | rethrow =>
    exact simEnd_drop (.inr (.inl ⟨_, rfl⟩)) (labelled_terminator rfl rfl) (standAll_nil _)
  | endFinally =>
    exact simEnd_drop (.inr (.inr rfl)) (labelled_terminator rfl rfl) (standAll_nil _)
  | endFilter =>
    refine sim_pop.bindEnd fun _ v w _ hv => ?_
    exact simEnd_drop (.inr (.inr rfl)) (labelled_terminator rfl rfl) (.cons hv (standAll_nil _))
  | _ => simp [passesControl] at h

end MethodIR.Import
