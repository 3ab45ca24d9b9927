/-
  Fallible computations in which a panic is told apart from a returned error,
  and the rules for loops over them.

  `Outcome ε α` is `Except (Fault ε) α`: `.error (.err e)` is a returned error,
  `.error .panic` is an index out of range, an absent map key, an `expect` on
  `None` or an `unreachable!`. A `for` loop with `?` in its body is
  `List.foldlM`; the rules below carry a property of the state through it.
-/
import Blut.Lib.Pairing

namespace Blut.Lib

/-- Why a computation did not return a value. -/
inductive Fault (ε : Type) where
  | err (e : ε)
  | panic
  deriving DecidableEq, Repr

/-- A computation that returns `α`, fails with `ε`, or panics. -/
abbrev Outcome (ε α : Type) := Except (Fault ε) α

variable {ε ε' α β σ : Type}

/-- `return Err(e)`. -/
def fail (e : ε) : Outcome ε α := .error (.err e)

/-- `if bad { return Err(e) }`. -/
def reject (bad : Bool) (e : ε) : Outcome ε Unit :=
  if bad then .error (.err e) else .ok ()

/-- `option.ok_or(e)?`. -/
def okOr (o : Option α) (e : ε) : Outcome ε α :=
  match o with
  | some a => .ok a
  | none => .error (.err e)

/-- `option.expect(..)`, and an indexing that panics when there is nothing there. -/
def expect (o : Option α) : Outcome ε α :=
  match o with
  | some a => .ok a
  | none => .error .panic

/-- `result.map_err(f)`. A panic stays a panic. -/
def mapErr (f : ε → ε') : Outcome ε α → Outcome ε' α
  | .ok a => .ok a
  | .error (.err e) => .error (.err (f e))
  | .error .panic => .error .panic

/-- The value, if the computation returned one. -/
def Outcome.value : Outcome ε α → Option α
  | .ok a => some a
  | .error _ => none

@[simp] theorem value_ok (a : α) : Outcome.value (.ok a : Outcome ε α) = some a := rfl

@[simp] theorem value_error (e : Fault ε) : Outcome.value (.error e : Outcome ε α) = none := rfl

/-! ## Peeling a computation that returned -/

variable {E : Type} {x : Except E α} {f : α → Except E β} {e : ε} {a : α}
  {step : σ → α → Except E σ} {s t : σ} {xs : List α} {ys : List β}

theorem bind_eq_ok {b : β} : (x >>= f) = .ok b ↔ ∃ a, x = .ok a ∧ f a = .ok b := by
  cases x with
  | error e => simp [bind, Except.bind]
  | ok a => simp [bind, Except.bind]

@[simp] theorem ok_bind (a : α) (f : α → Except E β) :
    ((Except.ok a : Except E α) >>= f) = f a := rfl

@[simp] theorem error_bind (e : E) (f : α → Except E β) :
    ((Except.error e : Except E α) >>= f) = .error e := rfl

@[simp] theorem pure_eq_ok (a : α) : (pure a : Except E α) = .ok a := rfl

@[simp] theorem reject_eq_ok {bad : Bool} {u : Unit} : reject bad e = .ok u ↔ bad = false := by
  cases bad <;> simp [reject]

@[simp] theorem okOr_eq_ok {o : Option α} : okOr o e = .ok a ↔ o = some a := by
  cases o <;> simp [okOr]

@[simp] theorem expect_eq_ok {o : Option α} : (expect o : Outcome ε α) = .ok a ↔ o = some a := by
  cases o <;> simp [expect]

@[simp] theorem mapErr_eq_ok {x : Outcome ε α} {f : ε → ε'} : mapErr f x = .ok a ↔ x = .ok a := by
  rcases x with (e | _) | a' <;> simp [mapErr]

@[simp] theorem fail_ne_ok : (fail e : Outcome ε α) ≠ .ok a := by
  simp [fail]

theorem reject_bind_eq_ok {bad : Bool} {f : Unit → Outcome ε β} {b : β} :
    (reject bad e >>= f) = .ok b ↔ bad = false ∧ f () = .ok b := by
  cases bad <;> simp [reject]

theorem value_eq_some {x : Outcome ε α} : Outcome.value x = some a ↔ x = .ok a := by
  cases x <;> simp [Outcome.value]

/-! ## Loops -/

theorem foldlM_nil_ok : ([] : List α).foldlM step s = .ok t ↔ s = t := by
  simp [List.foldlM_nil]

theorem foldlM_cons_ok {x : α} :
    (x :: xs).foldlM step s = .ok t ↔ ∃ s', step s x = .ok s' ∧ xs.foldlM step s' = .ok t := by
  rw [List.foldlM_cons, bind_eq_ok]

/-- A property that every step keeps holds at the end of the loop. The step may
    use that its element is one of the list. -/
theorem foldlM_inv (P : σ → Prop) (xs : List α)
    (hstep : ∀ s x s', x ∈ xs → P s → step s x = .ok s' → P s') (hs : P s)
    (h : xs.foldlM step s = .ok t) : P t := by
  induction xs generalizing s with
  | nil => rw [foldlM_nil_ok] at h; exact h ▸ hs
  | cons x xs ih =>
    obtain ⟨s', hx, hrest⟩ := foldlM_cons_ok.mp h
    exact ih (fun s y s' hy => hstep s y s' (List.mem_cons_of_mem _ hy))
      (hstep s x s' List.mem_cons_self hs hx) hrest

/-- The same with a property that may mention the elements already passed, for a loop that may
    fail. -/
theorem foldlM_cases (P : List α → σ → Prop) (bad : E → Prop) (xs : List α)
    (hstep : ∀ done x rest s, xs = done ++ x :: rest → P done s →
      (∃ s', step s x = .ok s' ∧ P (done ++ [x]) s') ∨ ∃ fault, step s x = .error fault ∧ bad fault)
    (hs : P [] s) :
    (∃ t, xs.foldlM step s = .ok t ∧ P xs t) ∨ ∃ fault, xs.foldlM step s = .error fault ∧
      bad fault := by
  have key : ∀ rest done s, xs = done ++ rest → P done s →
      (∃ t, rest.foldlM step s = .ok t ∧ P xs t) ∨
        ∃ fault, rest.foldlM step s = .error fault ∧ bad fault := by
    intro rest
    induction rest with
    | nil => exact fun done s hsplit hP => Or.inl ⟨s, rfl, by rwa [hsplit, List.append_nil]⟩
    | cons x rest ih =>
      intro done s hsplit hP
      rw [List.foldlM_cons]
      rcases hstep done x rest s hsplit hP with ⟨s', hx, hP'⟩ | ⟨fault, hx, hbad⟩
      · rw [hx]
        exact ih (done ++ [x]) s' (by simp [hsplit]) hP'
      · rw [hx]
        exact Or.inr ⟨fault, rfl, hbad⟩
  exact key xs [] s rfl hs

theorem foldlM_prefix_inv (P : List α → σ → Prop) (xs : List α)
    (hstep : ∀ done x rest s s', xs = done ++ x :: rest → P done s → step s x = .ok s' →
      P (done ++ [x]) s')
    (hs : P [] s) (h : xs.foldlM step s = .ok t) : P xs t := by
  have hcases : (∃ t, xs.foldlM step s = .ok t ∧ P xs t) ∨
      ∃ fault, xs.foldlM step s = .error fault ∧ True := by
    refine foldlM_cases P (fun _ => True) xs (fun done x rest s hsplit hP => ?_) hs
    cases hx : step s x with
    | ok s' => exact Or.inl ⟨s', rfl, hstep done x rest s s' hsplit hP hx⟩
    | error fault => exact Or.inr ⟨fault, rfl, trivial⟩
  rw [h] at hcases
  rcases hcases with ⟨t', hok, hP⟩ | ⟨fault, hfault, -⟩
  · rwa [Except.ok.inj hok]
  · exact nomatch hfault

/-- A loop whose steps all return, from states with the property, returns. -/
theorem foldlM_total (P : σ → Prop) (xs : List α)
    (hstep : ∀ s x, x ∈ xs → P s → ∃ s', step s x = .ok s' ∧ P s') (hs : P s) :
    ∃ t, xs.foldlM step s = .ok t ∧ P t := by
  induction xs generalizing s with
  | nil => exact ⟨s, rfl, hs⟩
  | cons x xs ih =>
    obtain ⟨s', hx, hP⟩ := hstep s x List.mem_cons_self hs
    obtain ⟨t, ht, hPt⟩ := ih (fun s y hy => hstep s y (List.mem_cons_of_mem _ hy)) hP
    exact ⟨t, foldlM_cons_ok.mpr ⟨s', hx, ht⟩, hPt⟩

/-- A loop whose every step appends to a list. -/
theorem foldlM_appends {step : List β → α → Except E (List β)} {g : α → List β} (xs : List α)
    {s t : List β} (hstep : ∀ x ∈ xs, ∀ s t, step s x = .ok t → t = s ++ g x)
    (h : xs.foldlM step s = .ok t) : t = s ++ xs.flatMap g := by
  induction xs generalizing s with
  | nil => rw [foldlM_nil_ok.mp h, List.flatMap_nil, List.append_nil]
  | cons x xs ih =>
    obtain ⟨mid, hmid, hrest⟩ := foldlM_cons_ok.mp h
    rw [ih (fun y hy => hstep y (List.mem_cons_of_mem x hy)) hrest,
      hstep x List.mem_cons_self s mid hmid, List.flatMap_cons, List.append_assoc]

theorem foldlM_flatMap {step : σ → β → Except E σ} (f : α → List β) (xs : List α) (s : σ) :
    (xs.flatMap f).foldlM step s = xs.foldlM (fun s x => (f x).foldlM step s) s := by
  induction xs generalizing s with
  | nil => rfl
  | cons x xs ih =>
    rw [List.flatMap_cons, List.foldlM_append, List.foldlM_cons]
    exact bind_congr fun s' => ih s'

/-- Every element of a loop that returned was stepped on, from some state. -/
theorem foldlM_step_of_mem (h : xs.foldlM step s = .ok t) {x : α} (hx : x ∈ xs) :
    ∃ a b, step a x = .ok b := by
  obtain ⟨before, after, hsplit⟩ := List.append_of_mem hx
  rw [hsplit, List.foldlM_append, bind_eq_ok] at h
  obtain ⟨mid, -, hrest⟩ := h
  obtain ⟨out, hstep, -⟩ := foldlM_cons_ok.mp hrest
  exact ⟨mid, out, hstep⟩

/-- A loop of checks returns when every check does. -/
theorem forM_eq_ok {f : α → Except E Unit} : xs.forM f = .ok () ↔ ∀ x ∈ xs, f x = .ok () := by
  induction xs with
  | nil => simp
  | cons x xs ih =>
    show (f x >>= fun _ => xs.forM f) = .ok () ↔ _
    rw [bind_eq_ok]
    constructor
    · intro h
      obtain ⟨u, hx, hrest⟩ := h
      exact List.forall_mem_cons.mpr ⟨hx, ih.mp hrest⟩
    · intro h
      exact ⟨(), h x List.mem_cons_self, ih.mpr fun y hy => h y (List.mem_cons_of_mem _ hy)⟩

/-- A loop of checks fails at an element that does not pass. -/
theorem forM_reject (bad : α → Bool) (e : α → ε) (xs : List α) :
    (xs.forM (fun x => reject (bad x) (e x)) = .ok () ∧ ∀ x ∈ xs, bad x = false) ∨
      ∃ x ∈ xs, bad x = true ∧ xs.forM (fun x => reject (bad x) (e x)) = fail (e x) := by
  induction xs with
  | nil => exact Or.inl ⟨rfl, fun x hx => absurd hx List.not_mem_nil⟩
  | cons x xs ih =>
    have hforM : (x :: xs).forM (fun x => reject (bad x) (e x)) =
        (reject (bad x) (e x) >>= fun _ => xs.forM fun x => reject (bad x) (e x)) := rfl
    rw [hforM]
    cases hx : bad x with
    | true => exact Or.inr ⟨x, List.mem_cons_self, hx, rfl⟩
    | false =>
      rcases ih with ⟨hok, hgood⟩ | ⟨y, hy, hbad, hfail⟩
      · exact Or.inl ⟨hok, List.forall_mem_cons.mpr ⟨hx, hgood⟩⟩
      · exact Or.inr ⟨y, List.mem_cons_of_mem _ hy, hbad, hfail⟩

section

variable (h : xs.mapM f = .ok ys)
include h

/-- Every element of a `mapM` that returned was mapped. -/
theorem mapM_ok_forall₂ : List.Forall₂ (fun x y => f x = .ok y) xs ys := by
  induction xs generalizing ys with
  | nil =>
    rw [List.mapM_nil] at h
    obtain rfl := Except.ok.inj h
    exact List.Forall₂.nil
  | cons x xs ih =>
    rw [List.mapM_cons] at h
    obtain ⟨y, hy, h⟩ := bind_eq_ok.mp h
    obtain ⟨rest, hrest, h⟩ := bind_eq_ok.mp h
    obtain rfl := Except.ok.inj h
    exact List.Forall₂.cons hy (ih hrest)

theorem mapM_ok_length : ys.length = xs.length := (mapM_ok_forall₂ h).length_eq.symm

theorem mapM_ok_getElem? (i : Nat) (x : α) (hx : xs[i]? = some x) :
    ∃ y, ys[i]? = some y ∧ f x = .ok y :=
  forall₂_getElem? (mapM_ok_forall₂ h) hx

theorem mapM_ok_source (i : Nat) (y : β) (hy : ys[i]? = some y) :
    ∃ x, xs[i]? = some x ∧ f x = .ok y :=
  forall₂_getElem?_right (mapM_ok_forall₂ h) hy

theorem mapM_ok_iff {i : Nat} {y : β} : ys[i]? = some y ↔ ∃ x, xs[i]? = some x ∧ f x = .ok y := by
  refine ⟨mapM_ok_source h i y, ?_⟩
  rintro ⟨x, hx, hf⟩
  obtain ⟨y', hy', hf'⟩ := mapM_ok_getElem? h i x hx
  rw [hy', Except.ok.inj (hf'.symm.trans hf)]

end

theorem mapM_congr {g : α → Except E β} (h : ∀ x ∈ xs, f x = g x) : xs.mapM f = xs.mapM g := by
  induction xs with
  | nil => rfl
  | cons x xs ih =>
    rw [List.mapM_cons, List.mapM_cons, h x List.mem_cons_self,
      ih fun y hy => h y (List.mem_cons_of_mem x hy)]

theorem mapM_eq_map {g : α → β} (h : ∀ x ∈ xs, f x = .ok (g x)) : xs.mapM f = .ok (xs.map g) := by
  induction xs with
  | nil => rfl
  | cons x xs ih =>
    rw [List.mapM_cons, h x List.mem_cons_self, ok_bind,
      ih fun y hy => h y (List.mem_cons_of_mem _ hy)]
    rfl

theorem mapM_total (h : ∀ x ∈ xs, ∃ y, f x = .ok y) : ∃ ys, xs.mapM f = .ok ys := by
  induction xs with
  | nil => exact ⟨[], rfl⟩
  | cons x xs ih =>
    obtain ⟨y, hy⟩ := h x List.mem_cons_self
    obtain ⟨ys, hys⟩ := ih fun z hz => h z (List.mem_cons_of_mem _ hz)
    exact ⟨y :: ys, by rw [List.mapM_cons, hy, ok_bind, hys, ok_bind]; rfl⟩

end Blut.Lib
