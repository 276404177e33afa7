import Mathlib

/-!
# Gleaph.Panic

Fallible code as `Except`: how sequencing acts on `ok` and `error`, how a
sequence that succeeds splits into its steps, `SucceedsAs` for a computation
that may fail less often than another, and `expect` for an unwrapped `Option`.
-/

namespace Gleaph

variable {ε α β : Type}

@[simp] theorem ok_bind (a : α) (f : α → Except ε β) : (Except.ok a >>= f) = f a := rfl

@[simp] theorem error_bind (e : ε) (f : α → Except ε β) : (Except.error e >>= f) = .error e := rfl

@[simp] theorem pure_eq_ok (a : α) : (pure a : Except ε α) = .ok a := rfl

@[simp] theorem throw_eq_error (e : ε) : (throw e : Except ε α) = .error e := rfl

/-- A sequence succeeds just when both its steps do. -/
theorem bind_eq_ok {x : Except ε α} : (x >>= f) = .ok b ↔ ∃ a, x = .ok a ∧ f a = .ok b := by
  cases x with
  | error e => simp
  | ok a => simp

theorem bind_inv {x : Except ε α} (h : (x >>= f) = .ok b) : ∃ a, x = .ok a ∧ f a = .ok b :=
  bind_eq_ok.mp h

theorem map_eq_ok {x : Except ε α} : f <$> x = .ok b ↔ ∃ a, x = .ok a ∧ f a = b := by
  cases x with
  | error e => simp
  | ok a => simp

section Loops

variable {f : α → Except ε β} {xs : List α} {ys : List β}

/-- A loop succeeds just when each of its rounds does. -/
theorem mapM_eq_ok_iff : xs.mapM f = .ok ys ↔ List.Forall₂ (fun x y => f x = .ok y) xs ys := by
  induction xs generalizing ys with
  | nil => simp [eq_comm]
  | cons x xs ih =>
    simp only [List.mapM_cons, bind_eq_ok, pure_eq_ok, Except.ok.injEq]
    constructor
    · rintro ⟨y, hy, ys, hys, rfl⟩
      exact .cons hy (ih.mp hys)
    · rintro (_ | ⟨hy, hys⟩)
      exact ⟨_, hy, _, ih.mpr hys, rfl⟩

/-- A loop in which every round succeeds. -/
theorem mapM_eq_ok (h : ∀ x ∈ xs, f x = .ok (g x)) : xs.mapM f = .ok (xs.map g) := by
  rw [mapM_eq_ok_iff, List.forall₂_map_right_iff, List.forall₂_same]
  exact h

/-- Rounds that each succeed on inputs in a relation leave results in another. -/
theorem mapM_forall₂ {γ : Type} {P : α → γ → Prop} {Q : β → γ → Prop} {zs : List γ}
    (h : List.Forall₂ P xs zs) (hstep : ∀ x, ∀ z ∈ zs, P x z → ∃ y, f x = .ok y ∧ Q y z) :
    ∃ ys, xs.mapM f = .ok ys ∧ List.Forall₂ Q ys zs := by
  induction h with
  | nil => exact ⟨[], rfl, .nil⟩
  | @cons x z xs zs hxz _ ih =>
    obtain ⟨y, hy, hq⟩ := hstep x z (by simp) hxz
    obtain ⟨ys, hys, hqs⟩ := ih fun x z hz => hstep x z (by simp [hz])
    exact ⟨y :: ys, by simp [List.mapM_cons, hy, hys], .cons hq hqs⟩

/-- Two lists in relation to a third are so entry by entry. -/
theorem forall₂_zip_of_forall₂ {γ : Type} {P : α → γ → Prop} {Q : β → γ → Prop} {zs : List γ}
    (h : List.Forall₂ P xs zs) (h' : List.Forall₂ Q ys zs) :
    List.Forall₂ (fun entry z => P entry.1 z ∧ Q entry.2 z) (xs.zip ys) zs := by
  induction h generalizing ys with
  | nil =>
    cases h'
    exact .nil
  | cons hxz _ ih =>
    cases h' with
    | cons hyz h' => exact .cons ⟨hxz, hyz⟩ (ih h')

/-- What each round makes can be read off its input. -/
theorem map_eq_of_mapM {γ : Type} {g : α → γ} {made : β → γ} (h : xs.mapM f = .ok ys)
    (hf : ∀ x y, f x = .ok y → made y = g x) : ys.map made = xs.map g := by
  rw [← List.forall₂_eq_eq_eq, List.forall₂_map_left_iff, List.forall₂_map_right_iff]
  exact ((mapM_eq_ok_iff.mp h).imp hf).flip

/-- What a loop that succeeds has collected. -/
theorem mapM_ok_eq {g : α → β} (h : xs.mapM f = .ok ys) (hf : ∀ x y, f x = .ok y → y = g x) :
    ys = xs.map g := by
  rw [← map_eq_of_mapM h hf, List.map_id']

/-- A loop whose rounds succeed as those of another do. -/
theorem mapM_of_mapM {γ : Type} {g : α → Except ε γ} {made : β → γ}
    (hg : ∀ x ∈ xs, ∀ y, f x = .ok y → g x = .ok (made y)) (h : xs.mapM f = .ok ys) :
    xs.mapM g = .ok (ys.map made) := by
  rw [mapM_eq_ok_iff] at h ⊢
  rw [List.forall₂_map_right_iff]
  induction h with
  | nil => exact .nil
  | cons hxy _ ih =>
    exact .cons (hg _ (by simp) _ hxy) (ih fun x hx => hg x (by simp [hx]))

end Loops

/-- A loop that succeeds has succeeded on each element. -/
theorem forM_eq_ok {f : α → Except ε Unit} {xs : List α} (h : forM xs f = .ok ()) {x : α}
    (hx : x ∈ xs) : f x = .ok () := by
  induction xs with
  | nil => cases hx
  | cons head xs ih =>
    rw [List.forM_cons] at h
    obtain ⟨u, hhead, h⟩ := bind_eq_ok.mp h
    rcases List.mem_cons.mp hx with rfl | hx
    · exact hhead
    · exact ih h hx

/-! ## Success is kept -/

/-- The second computation succeeds with the result of the first wherever the
first succeeds. -/
def SucceedsAs (m m' : Except ε α) : Prop := ∀ a, m = .ok a → m' = .ok a

namespace SucceedsAs

theorem refl (m : Except ε α) : SucceedsAs m m := fun _ h => h

theorem of_eq (h : m = m') : SucceedsAs m m' := fun _ hm => h ▸ hm

theorem trans (h : SucceedsAs m₁ m₂) (h' : SucceedsAs m₂ m₃) :
    SucceedsAs m₁ m₃ := fun a ha => h' a (h a ha)

theorem error (e : ε) (m : Except ε α) : SucceedsAs (.error e) m := fun _ h => by cases h

/-- Sequencing keeps success, step by step. -/
theorem bind (hm : SucceedsAs m m') (hf : ∀ a, m = .ok a → SucceedsAs (f a) (f' a)) :
    SucceedsAs (m >>= f) (m' >>= f') := by
  intro b hb
  obtain ⟨a, ha, hfa⟩ := bind_inv hb
  rw [hm a ha]
  exact hf a ha b hfa

theorem bind_right {m : Except ε α} (hf : ∀ a, m = .ok a → SucceedsAs (f a) (f' a)) :
    SucceedsAs (m >>= f) (m >>= f') :=
  bind (refl m) hf

theorem mapM {f g : α → Except ε β} {xs : List α} (h : ∀ x ∈ xs, SucceedsAs (f x) (g x)) :
    SucceedsAs (xs.mapM f) (xs.mapM g) := fun ys hys => by
  have hg := mapM_of_mapM (fun x hx y hy => (h x hx y hy : g x = .ok (id y))) hys
  rwa [List.map_id'] at hg

theorem map {m m' : Except ε α} (h : SucceedsAs m m') (f : α → β) :
    SucceedsAs (f <$> m) (f <$> m') := fun b hb => by
  obtain ⟨a, ha, rfl⟩ := map_eq_ok.mp hb
  rw [h a ha]
  rfl

end SucceedsAs

/-- The message is the panic. -/
def expect (message : String) : Option α → Except String α
  | some a => .ok a
  | none => .error message

@[simp] theorem expect_some (message : String) (a : α) : expect message (some a) = .ok a := rfl

end Gleaph
