import MethodIR.Bytecode.Assembler
import MethodIR.Proofs.CodePartition
import MethodIR.Proofs.Verified

/-!
# Assembled code

A listing can be assembled exactly if all labels it names are placed. The instructions then follow each other from
offset 0, and every label stands for the place where it was put last, which is the start of an instruction or the end
of the code (`Listing.assemble_places`). So leaders can only be missed for a region with an empty range.
-/

namespace MethodIR.Bytecode

open List Except

open Verify (bind_eq_ok)
open Import (exists_of_mem_right)

variable {α β : Type} {f : α → Except Error β} {xs : List α} {ys : List β}

lemma mapM_eq_ok : xs.mapM f = .ok ys ↔ Forall₂ (fun x y => f x = .ok y) xs ys := by
  induction xs generalizing ys with
  | nil =>
    rw [mapM_nil, forall₂_nil_left_iff]
    exact ⟨fun h => (ok.inj h).symm, fun h => h ▸ rfl⟩
  | cons x xs ih =>
    simp only [mapM_cons, bind_eq_ok, ih, forall₂_cons_left_iff]
    constructor
    · rintro ⟨y, hy, zs, hzs, h⟩
      exact ⟨y, zs, hy, hzs, (ok.inj h).symm⟩
    · rintro ⟨y, zs, hy, hzs, rfl⟩
      exact ⟨y, hy, zs, hzs, rfl⟩

lemma exists_mapM_iff : (∃ ys, xs.mapM f = .ok ys) ↔ ∀ x ∈ xs, ∃ y, f x = .ok y := by
  simp only [mapM_eq_ok]
  induction xs with
  | nil => simp
  | cons x xs ih =>
    simp only [forall₂_cons_left_iff, forall_mem_cons, ← ih]
    constructor
    · rintro ⟨_, y, zs, hy, hzs, rfl⟩
      exact ⟨⟨y, hy⟩, zs, hzs⟩
    · rintro ⟨⟨y, hy⟩, zs, hzs⟩
      exact ⟨_, y, zs, hy, hzs, rfl⟩

/-- The labels that an item names. -/
def Item.labels : Item → List String
  | .branch _ name => [name]
  | .switch names => names
  | _ => []

/-- The labels that a region names, in the order of `Region.bounds`. -/
def LabelledRegion.labels (r : LabelledRegion) : List String :=
  [r.tryStart, r.tryEnd, r.handlerStart, r.handlerEnd] ++ r.filterStart.toList

namespace Listing

variable {l : Listing} {m : Bytecode} {name : String} {o t : Nat} {items : List Item} {code : List Instruction}
  {item : Item} {i : Instruction} {r : LabelledRegion}

/-! ## Labels -/

def sizeOf (items : List Item) : Nat := (items.map Item.size).sum

/-- A label was last placed at an offset: so many bytes are before it, and it is not placed again. -/
def LastPlaced (l : Listing) (name : String) (offset : Nat) : Prop :=
  ∃ before after, l.items = before ++ .label name :: after ∧ .label name ∉ after ∧ offset = sizeOf before

lemma placedFrom_concat (item : Item) :
    placedFrom o (items ++ [item]) = placedFrom o items ++ [(o + sizeOf items, item)] := by
  induction items generalizing o with
  | nil => rfl
  | cons x items ih => simp [placedFrom, ih, sizeOf, Nat.add_assoc]

lemma map_snd_placedFrom (o : Nat) (items : List Item) : (placedFrom o items).map Prod.snd = items := by
  induction items generalizing o with
  | nil => rfl
  | cons x items ih => rw [placedFrom, map_cons, ih]

/-- The offsets at which a label is placed, first to last. -/
def placesIn (items : List Item) (name : String) : List Nat :=
  (placedFrom 0 items).filterMap fun p => if p.2 = .label name then some p.1 else none

lemma getLast?_placesIn : (placesIn items name).getLast? = some t ↔
    ∃ before after, items = before ++ .label name :: after ∧ .label name ∉ after ∧ t = sizeOf before := by
  induction items using reverseRecOn with
  | nil => simp [placesIn, placedFrom]
  | append_singleton items item ih =>
    rw [placesIn, placedFrom_concat, filterMap_append]
    by_cases hitem : item = .label name
    · simp only [filterMap_cons, filterMap_nil, if_pos hitem, getLast?_append, getLast?_singleton, Option.some_or,
        Nat.zero_add, Option.some.injEq]
      constructor
      · rintro rfl
        exact ⟨items, [], by rw [hitem], by simp, rfl⟩
      · rintro ⟨before, after, heq, hnot, rfl⟩
        rcases eq_nil_or_concat' after with rfl | ⟨after, last, rfl⟩
        · rw [(append_inj' heq rfl).1]
        · rw [← cons_append, ← append_assoc] at heq
          have hlast := cons.inj (append_inj' heq rfl).2
          simp [← hlast.1, hitem] at hnot
    · simp only [filterMap_cons, filterMap_nil, if_neg hitem, append_nil]
      rw [← placesIn, ih]
      constructor
      · rintro ⟨before, after, rfl, hnot, rfl⟩
        exact ⟨before, after ++ [item], by simp, by simp [hnot, Ne.symm hitem], rfl⟩
      · rintro ⟨before, after, heq, hnot, rfl⟩
        rcases eq_nil_or_concat' after with rfl | ⟨after, last, rfl⟩
        · exact absurd (cons.inj (append_inj' heq rfl).2).1 hitem
        · rw [← cons_append, ← append_assoc] at heq
          exact ⟨before, after, (append_inj' heq rfl).1, fun h => hnot (by simp [h]), rfl⟩

lemma resolve_eq_ok : l.resolve name = .ok t ↔ l.LastPlaced name t := by
  have hplaces : l.placesOf name = (placesIn l.items name).reverse := rfl
  rw [LastPlaced, ← getLast?_placesIn, resolve, hplaces, ← head?_reverse]
  cases (placesIn l.items name).reverse with
  | nil => simp
  | cons o os => simp

lemma exists_resolve_iff : (∃ t, l.resolve name = .ok t) ↔ .label name ∈ l.items := by
  simp only [resolve_eq_ok]
  constructor
  · rintro ⟨t, before, after, heq, -⟩
    simp [heq]
  · intro h
    obtain ⟨after, before, heq, hnot⟩ := eq_append_cons_of_mem (mem_reverse.2 h)
    exact ⟨_, before.reverse, after.reverse, by rw [← reverse_reverse l.items, heq]; simp, by simpa using hnot, rfl⟩

/-! ## Instructions -/

/-- What an item of a listing becomes: labels are replaced by the offsets where they were last placed. -/
inductive Emits (l : Listing) (o : Nat) : Item → Instruction → Prop
  | emit (op : Opcode) (operand : Operand) : Emits l o (.emit op operand) ⟨op, o, operand⟩
  | branch (op : Opcode) {name : String} {t : Nat} (place : l.LastPlaced name t) :
      Emits l o (.branch op name) ⟨op, o, .target t⟩
  | switch {names : List String} {ts : List Nat} (places : Forall₂ l.LastPlaced names ts) :
      Emits l o (.switch names) ⟨.switch, o, .table ts⟩

/-- Items become instructions that follow each other from an offset on. -/
inductive Assembles (l : Listing) : Nat → List Item → List Instruction → Prop
  | nil {o : Nat} : Assembles l o [] []
  | label {o : Nat} {name : String} {items : List Item} {code : List Instruction}
      (rest : Assembles l o items code) : Assembles l o (.label name :: items) code
  | item {o : Nat} {item : Item} {i : Instruction} {items : List Item} {code : List Instruction}
      (emits : l.Emits o item i) (rest : Assembles l i.endOffset items code) : Assembles l o (item :: items) (i :: code)

lemma Emits.endOffset (h : l.Emits o item i) : i.endOffset = o + item.size := by
  cases h with
  | emit op operand => rfl
  | branch op place =>
    simp only [Instruction.endOffset, Instruction.size, Item.size, Instruction.sizeOf]
    cases op.operandForm <;> rfl
  | switch places =>
    have hform : Opcode.switch.operandForm = .table := rfl
    simp [Instruction.endOffset, Instruction.size, Item.size, Instruction.sizeOf, hform, places.length_eq]

lemma emits_of_instruction? {i : Option Instruction} (h : item.instruction? l.resolve o = .ok i) :
    (∃ name, item = .label name ∧ i = none) ∨ ∃ j, i = some j ∧ l.Emits o item j := by
  cases item with
  | emit op operand => exact .inr ⟨_, (ok.inj h).symm, .emit op operand⟩
  | branch op name =>
    obtain ⟨t, ht, hi⟩ := bind_eq_ok.1 h
    exact .inr ⟨_, (ok.inj hi).symm, .branch op (resolve_eq_ok.1 ht)⟩
  | switch names =>
    obtain ⟨ts, hts, hi⟩ := bind_eq_ok.1 h
    exact .inr ⟨_, (ok.inj hi).symm, .switch ((mapM_eq_ok.1 hts).imp fun _ _ => resolve_eq_ok.1)⟩
  | label name => exact .inl ⟨name, rfl, (ok.inj h).symm⟩

lemma exists_instruction?_iff :
    (∃ i, item.instruction? l.resolve o = .ok i) ↔ ∀ name ∈ item.labels, .label name ∈ l.items := by
  cases item with
  | emit op operand | label name => exact ⟨fun _ => by simp [Item.labels], fun _ => ⟨_, rfl⟩⟩
  | branch op name =>
    simp only [Item.instruction?, bind_eq_ok, Item.labels, mem_singleton, forall_eq, ← exists_resolve_iff]
    constructor
    · rintro ⟨-, t, ht, -⟩
      exact ⟨t, ht⟩
    · rintro ⟨t, ht⟩
      exact ⟨_, t, ht, rfl⟩
  | switch names =>
    simp only [Item.instruction?, bind_eq_ok, Item.labels, ← exists_resolve_iff, ← exists_mapM_iff]
    constructor
    · rintro ⟨-, ts, hts, -⟩
      exact ⟨ts, hts⟩
    · rintro ⟨ts, hts⟩
      exact ⟨_, ts, hts, rfl⟩

lemma assembles_of_mapM {found : List (Option Instruction)}
    (h : (placedFrom o items).mapM (fun p => p.2.instruction? l.resolve p.1) = .ok found) :
    l.Assembles o items (found.filterMap id) := by
  induction items generalizing o found with
  | nil =>
    obtain rfl := forall₂_nil_left_iff.1 (mapM_eq_ok.1 h)
    exact .nil
  | cons item items ih =>
    obtain ⟨i, rest, hi, hrest, rfl⟩ := forall₂_cons_left_iff.1 (mapM_eq_ok.1 h)
    have hrest := ih (mapM_eq_ok.2 hrest)
    rcases emits_of_instruction? hi with ⟨name, rfl, rfl⟩ | ⟨j, rfl, hj⟩
    · exact .label hrest
    · exact .item hj (hj.endOffset ▸ hrest)

namespace Assembles

variable {before after : List Item}

section

variable (h : l.Assembles o items code)
include h

lemma contiguous : ContiguousFrom o code := by
  induction h with
  | nil => trivial
  | label _ ih => exact ih
  | item emits _ ih =>
    refine ⟨?_, ih⟩
    cases emits <;> rfl

lemma end_eq : (code.getLast?.map Instruction.endOffset).getD o = o + sizeOf items := by
  induction h with
  | nil => rfl
  | label _ ih => simpa [sizeOf, Item.size] using ih
  | @item o item i items code emits _ ih =>
    rw [emits.endOffset] at ih
    rw [sizeOf, map_cons, sum_cons, ← Nat.add_assoc, ← sizeOf, ← ih, ← emits.endOffset]
    cases code with
    | nil => rfl
    | cons j code => rw [getLast?_cons_cons, getLast?_cons]; rfl

lemma exists_emits (hi : i ∈ code) : ∃ o, ∃ item ∈ items, l.Emits o item i := by
  induction h with
  | nil => simp at hi
  | label _ ih =>
    obtain ⟨o, item, hitem, emits⟩ := ih hi
    exact ⟨o, item, mem_cons_of_mem _ hitem, emits⟩
  | item emits _ ih =>
    rcases mem_cons.1 hi with rfl | hi
    · exact ⟨_, _, mem_cons_self, emits⟩
    · obtain ⟨o, item, hitem, emits⟩ := ih hi
      exact ⟨o, item, mem_cons_of_mem _ hitem, emits⟩

end

lemma drop (h : l.Assembles o (before ++ after) code) :
    ∃ rest, l.Assembles (o + sizeOf before) after rest ∧ ∀ i ∈ rest, i ∈ code := by
  induction before generalizing o code with
  | nil => exact ⟨code, h, fun _ hi => hi⟩
  | cons x before ih =>
    rw [sizeOf, map_cons, sum_cons, ← Nat.add_assoc]
    cases h with
    | label rest => exact ih rest
    | item emits rest =>
      obtain ⟨code', hrest, hmem⟩ := ih (emits.endOffset ▸ rest)
      exact ⟨code', hrest, fun i hi => mem_cons_of_mem _ (hmem i hi)⟩

lemma exists_offset (h : l.Assembles o (before ++ after) code) :
    (∃ i ∈ code, i.offset = o + sizeOf before) ∨ sizeOf after = 0 := by
  obtain ⟨rest, hrest, hmem⟩ := h.drop
  cases rest with
  | nil =>
    have hend : o + sizeOf before = o + sizeOf before + sizeOf after := hrest.end_eq
    exact .inr (by omega)
  | cons i rest => exact .inl ⟨i, hmem i (by simp), hrest.contiguous.1⟩

end Assembles

/-! ## Regions -/

/-- A region with the offsets where its labels were last placed. -/
structure Bounds (l : Listing) (r : LabelledRegion) (x : Region) : Prop where
  kind : x.kind = r.kind
  caught : x.caught = r.caught
  places : Forall₂ l.LastPlaced r.labels x.bounds

lemma filter_eq_ok {start : Option String} {e : Option Nat} :
    start.mapM l.resolve = .ok e ↔ start.toList.mapM l.resolve = .ok e.toList := by
  cases start with
  | none => cases e <;> simp [pure, Except.pure]
  | some name =>
    rw [Option.toList_some, mapM_eq_ok]
    cases he : l.resolve name <;> cases e <;> simp [he]

lemma bounds_of_resolved {x : Region} (h : r.resolved l.resolve = .ok x) : l.Bounds r x := by
  simp only [LabelledRegion.resolved, bind_eq_ok, filter_eq_ok, mapM_eq_ok, resolve_eq_ok] at h
  obtain ⟨a, ha, b, hb, c, hc, d, hd, e, he, hx⟩ := h
  obtain rfl := ok.inj hx
  exact ⟨rfl, rfl, .cons ha (.cons hb (.cons hc (.cons hd he)))⟩

lemma exists_resolved_iff : (∃ x, r.resolved l.resolve = .ok x) ↔ ∀ name ∈ r.labels, .label name ∈ l.items := by
  simp only [← exists_resolve_iff, LabelledRegion.resolved, bind_eq_ok]
  constructor
  · rintro ⟨-, a, ha, b, hb, c, hc, d, hd, e, he, -⟩
    rw [filter_eq_ok, mapM_eq_ok] at he
    exact exists_mapM_iff.1 ⟨_, mapM_eq_ok.2 (.cons ha (.cons hb (.cons hc (.cons hd he))))⟩
  · intro h
    obtain ⟨a, ha⟩ := h r.tryStart (by simp [LabelledRegion.labels])
    obtain ⟨b, hb⟩ := h r.tryEnd (by simp [LabelledRegion.labels])
    obtain ⟨c, hc⟩ := h r.handlerStart (by simp [LabelledRegion.labels])
    obtain ⟨d, hd⟩ := h r.handlerEnd (by simp [LabelledRegion.labels])
    obtain ⟨e, he⟩ : ∃ e, r.filterStart.mapM l.resolve = .ok e := by
      cases hf : r.filterStart with
      | none => exact ⟨none, rfl⟩
      | some name =>
        obtain ⟨t, ht⟩ := h name (by simp [LabelledRegion.labels, hf])
        exact ⟨some t, by simp [ht]⟩
    exact ⟨_, a, ha, b, hb, c, hc, d, hd, e, he, rfl⟩

/-! ## Listings -/

/-- The listing that has become the method `m`. -/
structure Becomes (l : Listing) (m : Bytecode) : Prop where
  name : m.name = l.name
  declaring : m.declaring = l.declaring
  sig : m.sig = l.sig
  locals : m.locals = l.locals
  code : l.Assembles 0 l.items m.code.toList
  regions : Forall₂ l.Bounds l.regions m.regions

lemma becomes_of_assemble (h : l.assemble = .ok m) : l.Becomes m := by
  obtain ⟨found, hfound, h⟩ := bind_eq_ok.1 h
  obtain ⟨regions, hregions, h⟩ := bind_eq_ok.1 h
  obtain rfl := ok.inj h
  exact ⟨rfl, rfl, rfl, rfl, assembles_of_mapM hfound, (mapM_eq_ok.1 hregions).imp fun _ _ => bounds_of_resolved⟩

lemma exists_assemble_iff : (∃ m, l.assemble = .ok m) ↔
    (∀ item ∈ l.items, ∀ name ∈ item.labels, .label name ∈ l.items) ∧
      ∀ r ∈ l.regions, ∀ name ∈ r.labels, .label name ∈ l.items := by
  have hcode : (∃ found, l.placed.mapM (fun p => p.2.instruction? l.resolve p.1) = .ok found) ↔
      ∀ item ∈ l.items, ∀ name ∈ item.labels, .label name ∈ l.items := by
    conv_rhs => rw [← map_snd_placedFrom 0 l.items, forall_mem_map]
    simp only [exists_mapM_iff, exists_instruction?_iff, map_snd_placedFrom, placed]
  have hregions : (∃ regions, l.regions.mapM (LabelledRegion.resolved l.resolve) = .ok regions) ↔
      ∀ r ∈ l.regions, ∀ name ∈ r.labels, .label name ∈ l.items := by
    simp only [exists_mapM_iff, exists_resolved_iff]
  rw [← hcode, ← hregions]
  constructor
  · rintro ⟨m, hm⟩
    obtain ⟨found, hfound, hm⟩ := bind_eq_ok.1 hm
    obtain ⟨regions, hregions, -⟩ := bind_eq_ok.1 hm
    exact ⟨⟨found, hfound⟩, regions, hregions⟩
  · rintro ⟨⟨found, hfound⟩, regions, hregions⟩
    exact ⟨_, bind_eq_ok.2 ⟨found, hfound, bind_eq_ok.2 ⟨regions, hregions, rfl⟩⟩⟩

section

variable (h : l.Becomes m)

include h

lemma Becomes.codeSize : m.codeSize = sizeOf l.items := by
  have hend := h.code.end_eq
  rw [Nat.zero_add] at hend
  rw [← hend, Bytecode.codeSize]
  simp

lemma Becomes.isPlace (hname : l.LastPlaced name t) : m.IsPlace t := by
  obtain ⟨before, after, hitems, -, rfl⟩ := hname
  have hcode := h.code
  rw [hitems] at hcode
  rcases hcode.exists_offset with ⟨i, hi, heq⟩ | hzero
  · exact .inl ⟨i, hi, heq.trans (Nat.zero_add _)⟩
  · refine .inr ?_
    rw [h.codeSize, hitems]
    simp_all [sizeOf]

lemma Becomes.names_isPlace (hemit : ∀ op operand, .emit op operand ∈ l.items → op.endsBlock →
      (⟨op, 0, operand⟩ : Instruction).branchTargets = []) (hname : m.Names t) : m.IsPlace t := by
  cases hname with
  | bound mem bound =>
    obtain ⟨r, -, hr⟩ := exists_of_mem_right h.regions mem
    obtain ⟨name, -, hplace⟩ := exists_of_mem_right hr.places bound
    exact h.isPlace hplace
  | target mem ends target =>
    obtain ⟨o, item, hitem, emits⟩ := h.code.exists_emits mem
    cases emits with
    | emit op operand =>
      have hnone : t ∈ (⟨op, 0, operand⟩ : Instruction).branchTargets := target
      simp [hemit op operand hitem ends] at hnone
    | branch op place => exact h.isPlace (mem_singleton.1 target ▸ place)
    | switch places =>
      obtain ⟨name, -, hplace⟩ := exists_of_mem_right places target
      exact h.isPlace hplace

end

/-- A listing of less than 2^32 bytes can be assembled exactly if all labels that it names are placed. The code is
then contiguous, all labels stand for the offsets where they were last placed, and these are places of the code. If all
targets are given by labels, finding the leaders fails only for a region with an empty range. -/
theorem assemble_places (hsize : sizeOf l.items < wordLimit) : ((∃ m, l.assemble = .ok m) ↔
      (∀ item ∈ l.items, ∀ name ∈ item.labels, .label name ∈ l.items) ∧
        ∀ r ∈ l.regions, ∀ name ∈ r.labels, .label name ∈ l.items) ∧
    ∀ m, l.assemble = .ok m → l.Becomes m ∧ m.Contiguous ∧ (∀ name t, l.LastPlaced name t → m.IsPlace t) ∧
      ((∀ op operand, .emit op operand ∈ l.items → op.endsBlock →
          (⟨op, 0, operand⟩ : Instruction).branchTargets = []) →
        ∀ e, Import.leaders m = .error e → Import.EmptyRange m e) := by
  refine ⟨exists_assemble_iff, fun m hm => ?_⟩
  have h := becomes_of_assemble hm
  have hcontiguous : m.Contiguous := h.code.contiguous
  refine ⟨h, hcontiguous, fun name t => h.isPlace, fun hemit e he => ?_⟩
  rcases Import.leaders_cases hcontiguous (fun t => h.names_isPlace hemit) (h.codeSize ▸ hsize) with
    ⟨found, hfound, -⟩ | ⟨e', he', hempty⟩
  · rw [hfound] at he
    cases he
  · rw [he'] at he
    exact error.inj he ▸ hempty

/-- Branches forward and backward, a label that is placed twice, and a region whose handler is empty. -/
def retry : Listing where
  sig := { params := [], ret := .void }
  items := [.label "top", .branch .brS "end", .label "top", .emit .ldarg0 .none, .switch ["end", "top"], .label "end",
    .emit .ret .none, .label "last"]
  regions := [{ kind := .cleanup, tryStart := "top", tryEnd := "end", handlerStart := "last", handlerEnd := "last" }]

theorem retry_places : sizeOf retry.items < wordLimit ∧ ∃ m, retry.assemble = .ok m ∧ m.Contiguous ∧
    retry.LastPlaced "top" 2 ∧ m.IsPlace 2 ∧ ∀ e, Import.leaders m = .error e → Import.EmptyRange m e := by
  have hsize : sizeOf retry.items < wordLimit := by decide
  obtain ⟨hok, hall⟩ := assemble_places hsize
  obtain ⟨m, hm⟩ := hok.2 ⟨by decide, by decide⟩
  obtain ⟨-, hcontiguous, hplaces, hleaders⟩ := hall m hm
  have htop : retry.LastPlaced "top" 2 := ⟨retry.items.take 2, retry.items.drop 3, by decide, by decide, by decide⟩
  refine ⟨hsize, m, hm, hcontiguous, htop, hplaces _ _ htop, hleaders fun op operand hemit _ => ?_⟩
  obtain ⟨-, rfl⟩ | ⟨-, rfl⟩ : (op = .ldarg0 ∧ operand = .none) ∨ op = .ret ∧ operand = .none := by
    simpa [retry] using hemit
  · rfl
  · rfl

end Listing

end MethodIR.Bytecode
