import Mathlib

/-!
# Threaded lists

A list whose elements know their neighbours can be followed from either end, and two elements name each
other if and only if they are neighbours.
-/

namespace MethodIR

open List

variable {α : Type}

/-- Following `next` from an element leads through the elements of a list and then ends. -/
inductive Walk (next : α → Option α) : Option α → List α → Prop
  | done : Walk next none []
  | step {a : α} {l : List α} (rest : Walk next (next a) l) : Walk next (some a) (a :: l)

/-- `next` and `prev` are the links of a doubly linked list with the elements of `l`. -/
structure Threaded (next prev : α → Option α) (l : List α) : Prop where
  nodup : l.Nodup
  forward : Walk next l.head? l
  backward : Walk prev l.getLast? l.reverse
  mirror : ∀ a ∈ l, ∀ b ∈ l, next a = some b ↔ prev b = some a

variable {next prev : α → Option α} {l pre post pre' post' : List α} {a b : α}

lemma walk_of_splits (h : ∀ pre a post, l = pre ++ a :: post → next a = post.head?) : Walk next l.head? l := by
  suffices hall : ∀ post pre : List α, l = pre ++ post → Walk next post.head? post from hall l [] rfl
  intro post
  induction post with
  | nil => exact fun _ _ => .done
  | cons a post ih =>
    intro pre hl
    refine .step ?_
    rw [h pre a post hl]
    exact ih (pre ++ [a]) (by simp [hl])

lemma split_unique (hnodup : l.Nodup) (h : l = pre ++ a :: post)
    (h' : l = pre' ++ a :: post') : pre = pre' ∧ post = post' := by
  subst h
  have hnot := (nodup_middle.1 hnodup).notMem
  rw [mem_append, not_or] at hnot
  obtain ⟨hpre, -, hpost⟩ := (append_cons_inj_of_notMem hnot.1 hnot.2).1 h'
  exact ⟨hpre, hpost⟩

lemma threaded_of_splits (hnodup : l.Nodup) (hnext : ∀ pre a post, l = pre ++ a :: post → next a = post.head?)
    (hprev : ∀ pre a post, l = pre ++ a :: post → prev a = pre.getLast?) : Threaded next prev l := by
  refine ⟨hnodup, walk_of_splits hnext, ?_, fun a ha b hb => ?_⟩
  · have hback : ∀ pre a post, l.reverse = pre ++ a :: post → prev a = post.head? := by
      intro pre a post hl
      have hsplit : l = post.reverse ++ a :: pre.reverse := by
        rw [← reverse_reverse l, hl]
        simp
      rw [hprev _ a _ hsplit, getLast?_reverse]
    rw [← head?_reverse]
    exact walk_of_splits hback
  · obtain ⟨pre, post, hl⟩ := append_of_mem ha
    obtain ⟨pre', post', hl'⟩ := append_of_mem hb
    rw [hnext _ a _ hl, hprev _ b _ hl']
    constructor
    · intro hhead
      obtain ⟨rest, rfl⟩ := head?_eq_some_iff.1 hhead
      obtain ⟨rfl, -⟩ := split_unique hnodup hl' (show l = (pre ++ [a]) ++ b :: rest by simp [hl])
      simp
    · intro hlast
      obtain ⟨init, rfl⟩ := getLast?_eq_some_iff.1 hlast
      obtain ⟨-, rfl⟩ := split_unique hnodup hl (show l = init ++ a :: (b :: post') by simp [hl'])
      simp

/-! ## Links read off a list -/

variable [DecidableEq α]

lemma dropWhile_ne_of_split (hnodup : l.Nodup) (h : l = pre ++ a :: post) : l.dropWhile (· ≠ a) = a :: post := by
  subst h
  have hnot := (nodup_middle.1 hnodup).notMem
  rw [dropWhile_append_of_pos fun x hx => ?_]
  · simp
  · simp only [ne_eq, decide_eq_true_eq]
    rintro rfl
    simp [hx] at hnot

lemma takeWhile_ne_of_split (hnodup : l.Nodup) (h : l = pre ++ a :: post) : l.takeWhile (· ≠ a) = pre := by
  subst h
  have hnot := (nodup_middle.1 hnodup).notMem
  rw [takeWhile_append_of_pos fun x hx => ?_]
  · simp
  · simp only [ne_eq, decide_eq_true_eq]
    rintro rfl
    simp [hx] at hnot

end MethodIR
