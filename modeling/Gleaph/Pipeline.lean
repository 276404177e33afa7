import Gleaph.Panic

/-!
# Gleaph.Pipeline

Fallible pipelines over lists of items.

An operator either takes all items at once (`forEach`) or stands in front of a
consumer that may ask to stop (`Consumer`).  Both may be done one after the
other (`forEach_comp`), and a filter in front of a consumer may be done
beforehand (`Consumer.each_keep_eq`).
-/

namespace Gleaph

variable {ε α β σ : Type}

/-! ## All items at once -/

section

variable (step : α → Except ε (List β))

/-- A step that makes items of each item, over all of them in order. -/
def forEach (xs : List α) : Except ε (List β) :=
  List.flatten <$> xs.mapM step

@[simp] theorem forEach_nil : forEach step [] = .ok [] := rfl

theorem forEach_cons (x : α) (xs : List α) :
    forEach step (x :: xs) = do return (← step x) ++ (← forEach step xs) := by
  simp only [forEach, List.mapM_cons]
  cases step x with
  | error e => rfl
  | ok ys => cases xs.mapM step <;> rfl

end

variable {xs : List α} {f : α → Except ε β}

theorem forEach_cons_eq_ok :
    forEach step (x :: xs) = .ok out ↔
      ∃ ys zs, step x = .ok ys ∧ forEach step xs = .ok zs ∧ out = ys ++ zs := by
  rw [forEach_cons]
  simp only [bind_eq_ok, pure_eq_ok, Except.ok.injEq]
  constructor
  · rintro ⟨ys, hy, zs, hz, rfl⟩
    exact ⟨ys, zs, hy, hz, rfl⟩
  · rintro ⟨ys, zs, hy, hz, rfl⟩
    exact ⟨ys, hy, zs, hz, rfl⟩

theorem forEach_append_eq_ok {ys : List α} {step : α → Except ε (List β)}
    (h : forEach step (xs ++ ys) = .ok out) :
    ∃ first rest,
      forEach step xs = .ok first ∧ forEach step ys = .ok rest ∧ out = first ++ rest := by
  induction xs generalizing out with
  | nil => exact ⟨[], out, rfl, h, rfl⟩
  | cons x xs ih =>
    obtain ⟨made, others, hx, hothers, rfl⟩ := forEach_cons_eq_ok.mp h
    obtain ⟨first, rest, hfirst, hrest, rfl⟩ := ih hothers
    exact ⟨made ++ first, rest, forEach_cons_eq_ok.mpr ⟨made, first, hx, hfirst, rfl⟩, hrest,
      (List.append_assoc ..).symm⟩

/-- Two steps over all items are one. -/
theorem forEach_comp {γ : Type} {step : α → Except ε (List β)} {step' : β → Except ε (List γ)}
    {out : List γ}
    (h : forEach step xs = .ok mid) (h' : forEach step' mid = .ok out) :
    forEach (fun x => do forEach step' (← step x)) xs = .ok out := by
  induction xs generalizing mid out with
  | nil =>
    cases h
    exact h'
  | cons x xs ih =>
    obtain ⟨made, others, hx, hothers, rfl⟩ := forEach_cons_eq_ok.mp h
    obtain ⟨first, rest, hfirst, hrest, rfl⟩ := forEach_append_eq_ok h'
    refine forEach_cons_eq_ok.mpr ⟨first, rest, ?_, ih hothers hrest, rfl⟩
    rw [hx]
    exact hfirst

/-- A step that succeeds on all items does so on some of them. -/
theorem forEach_sublist {ys : List α} {step : α → Except ε (List β)} {out : List β}
    (h : forEach step xs = .ok out) (hys : ys.Sublist xs) :
    ∃ made, forEach step ys = .ok made ∧ made.Sublist out := by
  induction hys generalizing out with
  | slnil => exact ⟨out, h, .refl _⟩
  | cons x _ ih =>
    obtain ⟨first, rest, -, hrest, rfl⟩ := forEach_cons_eq_ok.mp h
    obtain ⟨made, hmade, hsub⟩ := ih hrest
    exact ⟨made, hmade, hsub.trans (List.sublist_append_right _ _)⟩
  | cons_cons x _ ih =>
    obtain ⟨first, rest, hfirst, hrest, rfl⟩ := forEach_cons_eq_ok.mp h
    obtain ⟨made, hmade, hsub⟩ := ih hrest
    exact ⟨first ++ made, forEach_cons_eq_ok.mpr ⟨first, made, hfirst, hmade, rfl⟩,
      hsub.append_left first⟩

/-- A step that cannot fail. -/
theorem forEach_ok (f : α → List β) (xs : List α) :
    forEach (fun x => .ok (f x) : α → Except ε (List β)) xs = .ok (xs.flatMap f) := by
  induction xs with
  | nil => rfl
  | cons x xs ih => simp [forEach_cons, ih]

/-- A step that makes one item. -/
theorem mapM_eq_forEach (f : α → Except ε β) (xs : List α) :
    xs.mapM f = forEach (fun x => do return [← f x]) xs := by
  induction xs with
  | nil => rfl
  | cons x xs ih =>
    simp only [forEach_cons, ← ih, List.mapM_cons]
    cases f x with
    | error e => rfl
    | ok y => cases xs.mapM f <;> rfl

/-! ## Tests -/

section

variable (test : α → Except ε Bool)

/-- The items that pass a fallible test. -/
def keep (xs : List α) : Except ε (List α) :=
  forEach (fun x => do return if ← test x then [x] else []) xs

/-- The verdict of a test, a failure counted as no. -/
def passes (x : α) : Bool :=
  match test x with
  | .ok verdict => verdict
  | .error _ => false

/-- The test gives a verdict on this item. -/
def HasVerdict (x : α) : Prop := ∃ verdict, test x = .ok verdict

end

theorem passes_eq (h : test x = .ok verdict) : passes test x = verdict := by simp [passes, h]

theorem HasVerdict.eq_passes (h : HasVerdict test x) : test x = .ok (passes test x) := by
  obtain ⟨verdict, hv⟩ := h
  rw [passes_eq hv, hv]

/-- A filter succeeds just when the test gives a verdict on every item. -/
theorem keep_eq_ok :
    keep test xs = .ok out ↔ (∀ x ∈ xs, HasVerdict test x) ∧ out = xs.filter (passes test) := by
  induction xs generalizing out with
  | nil => simp [keep, eq_comm]
  | cons x xs ih =>
    simp only [keep] at ih ⊢
    rw [forEach_cons_eq_ok]
    constructor
    · rintro ⟨ys, zs, hx, hxs, rfl⟩
      obtain ⟨verdict, hv, hy⟩ := bind_inv hx
      obtain ⟨hall, rfl⟩ := ih.mp hxs
      cases hy
      refine ⟨List.forall_mem_cons.mpr ⟨⟨verdict, hv⟩, hall⟩, ?_⟩
      cases verdict <;> simp [passes_eq hv]
    · rintro ⟨hall, rfl⟩
      obtain ⟨hx, hxs⟩ := List.forall_mem_cons.mp hall
      refine ⟨if passes test x then [x] else [], _, ?_, ih.mpr ⟨hxs, rfl⟩, ?_⟩
      · rw [hx.eq_passes]
        rfl
      · cases h : passes test x <;> simp [h]

/-! ## Consumers -/

/-- What takes items one by one, with a state; `true` asks to stop. -/
abbrev Consumer (ε σ α : Type) := α → σ → Except ε (Bool × σ)

namespace Consumer

/-- Items in order until the consumer asks to stop. -/
def each (next : Consumer ε σ α) : List α → σ → Except ε (Bool × σ)
  | [], s => .ok (false, s)
  | x :: xs, s => do
    let (done, s) ← next x s
    if done then return (true, s) else each next xs s

/-- Items in order to the end, whatever the consumer asks. -/
def all (next : Consumer ε σ α) : List α → σ → Except ε (Bool × σ)
  | [], s => .ok (false, s)
  | x :: xs, s => do
    let (done, s) ← next x s
    let (doneLater, s) ← all next xs s
    return (done || doneLater, s)

/-- A step that makes at most one item in front of a consumer. -/
def through (f : α → Except ε (Option β)) (next : Consumer ε σ β) : Consumer ε σ α := fun x s => do
  match ← f x with
  | none => return (false, s)
  | some y => next y s

/-- A test in front of a consumer. -/
def keep (test : α → Except ε Bool) (next : Consumer ε σ α) : Consumer ε σ α := fun x s => do
  if ← test x then next x s else return (false, s)

theorem keep_of_eq (h : test x = .ok verdict) (s : σ) :
    keep test next x s = if verdict then next x s else .ok (false, s) := by
  simp [keep, h]

/-- A filter in front of a consumer is the consumer over the filtered items. -/
theorem each_keep_eq (h : ∀ x ∈ xs, HasVerdict test x) (s : σ) :
    each (keep test next) xs s = each next (xs.filter (passes test)) s := by
  induction xs generalizing s with
  | nil => rfl
  | cons x xs ih =>
    obtain ⟨hx, hxs⟩ := List.forall_mem_cons.mp h
    rw [each, keep_of_eq hx.eq_passes]
    cases hp : passes test x with
    | false =>
      rw [List.filter_cons_of_neg (by simp [hp])]
      exact ih hxs s
    | true =>
      rw [List.filter_cons_of_pos hp, each]
      refine bind_congr fun r => ?_
      obtain ⟨done, s'⟩ := r
      cases done with
      | true => rfl
      | false => exact ih hxs s'

end Consumer

end Gleaph
