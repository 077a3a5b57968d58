import Mathlib.Data.List.Basic
import Mathlib.Logic.Function.Basic

/-!
# Linked nodes

A singly linked list is a function `next` from a node to its successor, with
`none` for a null link.  `Path next p xs` says that following `next` from `p`
visits exactly `xs` and then reaches null.  A path is determined by its start
(`Path.unique`), so it never visits a node twice (`Path.nodup`).

Three rules say how a path changes when one link is rewritten: off the path
nothing changes (`Path.update_off`), writing the link of the last node extends
the path (`Path.snoc`), and the rest of a path is a path (`Path.tail`).

`walk` is the bounded search for the first node that satisfies a test.  The
bound suffices as soon as it covers the path (`walk_eq_find?`).
-/

namespace Linked

variable {α : Type*} {next next' : α → Option α}

/-- Following `next` from `p` visits exactly `xs` and then reaches null. -/
def Path (next : α → Option α) : Option α → List α → Prop
  | p, [] => p = none
  | p, x :: xs => p = some x ∧ Path next (next x) xs

@[simp] theorem path_nil {p : Option α} : Path next p [] ↔ p = none := Iff.rfl

@[simp] theorem path_cons {p : Option α} {x : α} {xs : List α} :
    Path next p (x :: xs) ↔ p = some x ∧ Path next (next x) xs := Iff.rfl

theorem Path.tail {p : Option α} {x : α} {xs : List α} (h : Path next p (x :: xs)) :
    Path next (next x) xs := h.2

/-- The start of a path is the first node it visits. -/
theorem Path.head?_eq {p : Option α} : ∀ {xs : List α}, Path next p xs → xs.head? = p
  | [], h => by simpa using h.symm
  | _ :: _, h => by simpa using h.1.symm

/-- A path is determined by its start. -/
theorem Path.unique : ∀ {xs ys : List α} {p : Option α},
    Path next p xs → Path next p ys → xs = ys
  | [], [], _, _, _ => rfl
  | [], y :: ys, p, hx, hy => by
      rw [path_nil] at hx
      rw [path_cons, hx] at hy
      exact absurd hy.1 (by simp)
  | x :: xs, [], p, hx, hy => by
      rw [path_nil] at hy
      rw [path_cons, hy] at hx
      exact absurd hx.1 (by simp)
  | x :: xs, y :: ys, p, hx, hy => by
      obtain ⟨hpx, htx⟩ := hx
      obtain ⟨hpy, hty⟩ := hy
      have hxy : x = y := Option.some.inj (hpx.symm.trans hpy)
      subst hxy
      rw [Path.unique htx hty]

/-- The part of a path from one of its nodes on. -/
theorem Path.drop : ∀ {xs : List α} {p : Option α} {y : α} {ys : List α},
    Path next p (xs ++ y :: ys) → Path next (some y) (y :: ys)
  | [], _, _, _, h => ⟨rfl, h.2⟩
  | _ :: _, _, _, _, h => Path.drop h.2

/-- A path visits no node twice.  The parts of the path after two visits of one
node start alike, so they are equal, and one is longer than the other. -/
theorem Path.nodup : ∀ {xs : List α} {p : Option α}, Path next p xs → xs.Nodup
  | [], _, _ => List.nodup_nil
  | x :: xs, p, h => by
      refine List.nodup_cons.mpr ⟨fun hmem => ?_, Path.nodup h.2⟩
      obtain ⟨as, bs, hsplit⟩ := List.append_of_mem hmem
      have htail : Path next (next x) (as ++ x :: bs) := hsplit ▸ h.2
      have hagain : Path next (some x) (x :: bs) := htail.drop
      have heq : as ++ x :: bs = bs := Path.unique htail hagain.2
      have hlen := congrArg List.length heq
      simp at hlen
      omega

/-- A path reads only the links of its own nodes. -/
theorem Path.congr : ∀ {xs : List α} {p : Option α},
    Path next p xs → (∀ x ∈ xs, next' x = next x) → Path next' p xs
  | [], _, h, _ => h
  | x :: xs, p, h, hag => by
      refine ⟨h.1, ?_⟩
      rw [hag x List.mem_cons_self]
      exact Path.congr h.2 fun y hy => hag y (List.mem_cons_of_mem x hy)

/-- The last node of a path has a null link. -/
theorem Path.getLast_null : ∀ {xs : List α} {p : Option α} {t : α},
    Path next p xs → xs.getLast? = some t → next t = none
  | [], _, _, _, ht => by simp at ht
  | [x], _, t, h, ht => by
      have hxt : x = t := by simpa using ht
      rw [← hxt]
      exact h.2
  | _ :: y :: ys, _, t, h, ht => by
      rw [List.getLast?_cons_cons] at ht
      exact Path.getLast_null h.2 ht

/-- A link of a node on a path leads to a later node of the path. -/
theorem Path.mem_tail_of_next : ∀ {xs : List α} {p : Option α} {x y : α},
    Path next p xs → x ∈ xs → next x = some y → y ∈ xs.tail
  | [], _, _, _, _, hx, _ => by cases hx
  | z :: zs, p, x, y, h, hx, hxy => by
      cases List.mem_cons.mp hx with
      | inl he =>
          subst he
          have hstart : zs.head? = some y := by rw [h.2.head?_eq, hxy]
          exact List.mem_of_head? hstart
      | inr hx' => exact List.mem_of_mem_tail (Path.mem_tail_of_next h.2 hx' hxy)

section Update

variable [DecidableEq α]

/-- Rewriting a link off the path leaves the path as it is. -/
theorem Path.update_off {xs : List α} {p : Option α} {y : α} {v : Option α}
    (h : Path next p xs) (hy : y ∉ xs) : Path (Function.update next y v) p xs :=
  h.congr fun _ hx => Function.update_of_ne (ne_of_mem_of_not_mem hx hy) v next

/-- Linking a fresh node with a null link behind the last node extends the
path by that node. -/
theorem Path.snoc : ∀ {xs : List α} {p : Option α} {t y : α}, Path next p xs →
    xs.getLast? = some t → y ∉ xs → next y = none →
    Path (Function.update next t (some y)) p (xs ++ [y])
  | [], _, _, _, _, ht, _, _ => by simp at ht
  | [x], p, t, y, h, ht, hy, hnull => by
      have hxt : x = t := by simpa using ht
      subst hxt
      have hyx : y ≠ x := fun he => hy (by simp [he])
      refine ⟨h.1, ?_, ?_⟩
      · exact Function.update_self x (some y) next
      · rw [Function.update_of_ne hyx]
        exact hnull
  | x :: z :: zs, p, t, y, h, ht, hy, hnull => by
      rw [List.getLast?_cons_cons] at ht
      have hrest : Path (Function.update next t (some y)) (next x) (z :: zs ++ [y]) :=
        Path.snoc h.2 ht (fun hmem => hy (List.mem_cons_of_mem x hmem)) hnull
      have hxt : x ≠ t := by
        intro he
        have hnd := h.nodup
        rw [List.nodup_cons] at hnd
        exact hnd.1 (he ▸ List.mem_of_getLast? ht)
      refine ⟨h.1, ?_⟩
      rw [Function.update_of_ne hxt]
      exact hrest

end Update

/-- The front of a list that passes a test depends on the test at its elements only. -/
theorem takeWhile_congr {f g : α → Bool} : ∀ {xs : List α}, (∀ x ∈ xs, f x = g x) →
    xs.takeWhile f = xs.takeWhile g
  | [], _ => rfl
  | x :: xs, h => by
      rw [List.takeWhile_cons, List.takeWhile_cons, h x List.mem_cons_self,
        takeWhile_congr fun y hy => h y (List.mem_cons_of_mem x hy)]

/-! ## Bounded search -/

/-- The first node from a start on that satisfies `stop`, or `some none` at the
null link.  The result is `none` when neither is reached within the bound. -/
def walk (next : α → Option α) (stop : α → Bool) : Nat → Option α → Option (Option α)
  | _, none => some none
  | 0, some _ => none
  | n + 1, some x => if stop x then some (some x) else walk next stop n (next x)

/-- A bound that covers the path suffices. -/
theorem walk_eq_find? (stop : α → Bool) : ∀ {xs : List α} {p : Option α} {n : Nat},
    Path next p xs → xs.length ≤ n → walk next stop n p = some (xs.find? stop)
  | [], p, n, h, _ => by
      rw [path_nil] at h
      subst h
      cases n <;> rfl
  | x :: xs, p, 0, _, hn => by simp at hn
  | x :: xs, p, n + 1, h, hn => by
      have hlen : xs.length ≤ n := by simpa using hn
      rw [h.1, walk, List.find?_cons]
      cases hx : stop x with
      | true => rfl
      | false => simpa using walk_eq_find? stop h.2 hlen

end Linked
