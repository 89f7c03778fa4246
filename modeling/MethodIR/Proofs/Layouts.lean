import Mathlib
import MethodIR.Body.Layout

/-!
# Layouts that are one row

As long as a block is only put next to one in the row, the row is the whole layout (`Layout.Row`):
placing a block adds it to the row, and taking it out leaves the others in order.
-/

namespace MethodIR.Layout

open List

variable {l : Layout} {a b : BlockId} {run pre post : List BlockId}

/-- The layout is one row without repetition, and `tail` is its end. -/
structure Row (l : Layout) : Prop where
  nodup : l.order.Nodup
  tail_eq : l.tail = l.order.getLast?
  stray_nil : l.stray = []
  rings_nil : l.rings = []

lemma Row.ring?_eq_none (h : l.Row) : l.ring? a = none := by simp [ring?, h.rings_nil]

lemma Row.runs_eq (h : l.Row) : l.runs = [l.order] := by rw [runs, h.stray_nil]

lemma Row.next?_eq (h : l.Row) : l.next? a = nextIn a l.order := by
  rw [next?, h.ring?_eq_none, h.runs_eq]
  cases hn : nextIn a l.order <;> simp [hn]

lemma Row.prev?_eq (h : l.Row) : l.prev? a = prevIn a l.order := by
  rw [prev?, h.ring?_eq_none, h.runs_eq]
  cases hp : prevIn a l.order <;> simp [hp]

lemma mem_of_nextIn (h : nextIn b run = some a) : a ∈ run := by
  induction run with
  | nil => simp [nextIn] at h
  | cons x run ih =>
    cases run with
    | nil => simp [nextIn] at h
    | cons y rest =>
      rw [nextIn] at h
      split at h
      · obtain rfl := Option.some.inj h
        simp
      · exact mem_cons_of_mem x (ih h)

lemma Row.mem_of_prev? (h : l.Row) (ha : l.prev? b = some a) : a ∈ l.order := by
  rw [h.prev?_eq, prevIn] at ha
  exact mem_reverse.1 (mem_of_nextIn ha)

lemma putAfter_perm (ha : a ∈ run) : (putAfter a b run).Perm (b :: run) := by
  induction run with
  | nil => simp at ha
  | cons x run ih =>
    rw [putAfter]
    split
    · exact .swap b x run
    · next hx =>
      have ha : a ∈ run := (mem_cons.1 ha).resolve_left (Ne.symm hx)
      exact ((ih ha).cons x).trans (.swap b x run)

lemma getLast?_putAfter (ha : a ∈ run) : (putAfter a b run).getLast? =
    if (nextIn a run).isNone then some b else run.getLast? := by
  induction run with
  | nil => simp at ha
  | cons x run ih =>
    rw [putAfter]
    split
    · next hx =>
      cases run with
      | nil => simp [nextIn]
      | cons y run => simp [nextIn, hx]
    · next hx =>
      have ha : a ∈ run := (mem_cons.1 ha).resolve_left (Ne.symm hx)
      cases run with
      | nil => simp at ha
      | cons y run =>
        have hne : putAfter a b (y :: run) ≠ [] := fun hnil => by
          simpa [hnil] using (putAfter_perm (b := b) ha).length_eq
        rw [getLast?_cons_of_ne_nil hne, ih ha, nextIn, if_neg hx, getLast?_cons_cons]

lemma Row.insertAfter (h : l.Row) (ha : a ∈ l.order) (hb : b ∉ l.order) :
    (l.insertAfter a b).Row ∧ (l.insertAfter a b).order.Perm (b :: l.order) := by
  have hne : a ≠ b := fun hab => hb (hab ▸ ha)
  have heq : l.insertAfter a b = { l with
      order := putAfter a b l.order
      tail := if (nextIn a l.order).isNone then some b else l.tail } := by
    rw [Layout.insertAfter, if_neg hne, h.ring?_eq_none, h.runs_eq, h.next?_eq, h.stray_nil]
    simp [ha]
  have hperm := putAfter_perm (b := b) ha
  rw [heq]
  refine ⟨⟨hperm.nodup_iff.2 (nodup_cons.2 ⟨hb, h.nodup⟩), ?_, h.stray_nil, h.rings_nil⟩, hperm⟩
  rw [getLast?_putAfter ha, h.tail_eq]

lemma Row.append (h : l.Row) (hb : b ∉ l.order) : (l.append b).Row ∧ (l.append b).order.Perm (b :: l.order) := by
  cases ht : l.tail with
  | some t =>
    rw [Layout.append, ht]
    exact h.insertAfter (mem_of_getLast? (h.tail_eq.symm.trans ht)) hb
  | none =>
    have hnil : l.order = [] := getLast?_eq_none_iff.1 (h.tail_eq.symm.trans ht)
    have heq : l.append b = { l with order := [b], tail := some b } := by
      rw [Layout.append, ht, h.runs_eq, h.stray_nil]
      simp [hnil]
    rw [heq, hnil]
    exact ⟨⟨by simp, rfl, h.stray_nil, h.rings_nil⟩, .refl _⟩

lemma nextIn_of_split (hpre : b ∉ pre) : nextIn b (pre ++ b :: post) = post.head? := by
  induction pre with
  | nil => cases post <;> simp [nextIn]
  | cons x pre ih =>
    simp only [mem_cons, not_or] at hpre
    cases pre with
    | nil => simp [nextIn, Ne.symm hpre.1, ← ih]
    | cons y pre =>
      rw [← ih hpre.2]
      simp [nextIn, Ne.symm hpre.1]

lemma Row.remove (h : l.Row) (hb : b ∈ l.order) : (l.remove b).Row ∧ (l.remove b).order = l.order.erase b := by
  obtain ⟨pre, post, hsplit⟩ := append_of_mem hb
  have hnodup := nodup_middle.1 (hsplit ▸ h.nodup)
  have hnot := hnodup.notMem
  rw [mem_append, not_or] at hnot
  have hnext : nextIn b l.order = post.head? := by rw [hsplit, nextIn_of_split hnot.1]
  have hprev : prevIn b l.order = pre.getLast? := by
    rw [prevIn, hsplit, reverse_append, reverse_cons, append_assoc, singleton_append,
      nextIn_of_split (by simpa using hnot.2), head?_reverse]
  have herase : l.order.erase b = pre ++ post := by
    rw [hsplit, erase_append_right _ hnot.1, erase_cons_head]
  have horder : (l.remove b).order = pre ++ post ∧ (l.remove b).stray = [] ∧ (l.remove b).rings = [] ∧
      (l.remove b).tail = if post.head?.isNone then pre.getLast? else l.tail := by
    rw [Layout.remove, h.ring?_eq_none, h.next?_eq, h.prev?_eq, h.runs_eq, h.stray_nil, hnext, hprev]
    cases pre with
    | nil => simp [hsplit, h.rings_nil]
    | cons x pre => simp [herase, h.rings_nil]
  obtain ⟨horder, hstray, hrings, htail⟩ := horder
  refine ⟨⟨horder ▸ (nodup_cons.1 hnodup).2, ?_, hstray, hrings⟩, horder.trans herase.symm⟩
  rw [htail, horder, h.tail_eq, hsplit]
  cases post with
  | nil => simp
  | cons y post => simp [getLast?_append]

end MethodIR.Layout
