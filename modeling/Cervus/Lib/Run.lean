import Mathlib.Logic.Relation
import Mathlib.Tactic.Common

/-! Runs of a system that takes one action at a time. `ok` restricts the actions
a run may take, so that one system carries both the unrestricted runs and the
runs of a well-behaved environment. -/

namespace Cervus

open Option

theorem of_guard {S : Type*} {p : Prop} [Decidable p] {a b : S}
    (h : (if p then some a else none) = some b) :
    p ∧ a = b :=
  (ite_none_right_eq_some.mp h).imp_right Option.some.inj

structure System (S A : Type*) where
  init : S
  next : S → A → Option S

namespace System
variable {S A : Type*} {M : System S A} {ok ok' : S → A → Prop} {s t : S}

def Step (M : System S A) (ok : S → A → Prop) (s t : S) : Prop :=
  ∃ a, ok s a ∧ M.next s a = some t

def Reach (M : System S A) (ok : S → A → Prop) (s : S) : Prop :=
  Relation.ReflTransGen (M.Step ok) M.init s

def anyStep : S → A → Prop := fun _ _ => True

theorem Reach.start : M.Reach ok M.init := Relation.ReflTransGen.refl

theorem Reach.step {a : A} (h : M.Reach ok s) (ha : ok s a) (hs : M.next s a = some t) :
    M.Reach ok t :=
  Relation.ReflTransGen.tail h ⟨a, ha, hs⟩

theorem Reach.stepD {a : A} (h : M.Reach ok s) (ha : ok s a) (hs : (M.next s a).isSome) :
    M.Reach ok ((M.next s a).getD s) := by
  obtain ⟨t, ht⟩ := isSome_iff_exists.mp hs
  rw [ht]
  exact h.step ha ht

theorem Reach.invariant {I : S → Prop} (h0 : I M.init)
    (hs : ∀ s a t, M.Reach ok s → I s → ok s a → M.next s a = some t → I t) (h : M.Reach ok s) :
    I s := by
  induction h with
  | refl => exact h0
  | tail hr hst ih =>
    obtain ⟨a, ha, hn⟩ := hst
    exact hs _ a _ hr ih ha hn

theorem Reach.mono (hok : ∀ s a, ok s a → ok' s a) (h : M.Reach ok s) : M.Reach ok' s := by
  refine Relation.ReflTransGen.mono ?_ _ _ h
  rintro s t ⟨a, ha, hn⟩
  exact ⟨a, hok s a ha, hn⟩

def run (M : System S A) : S → List A → Option S
  | s, [] => some s
  | s, a :: as => (M.next s a).bind fun t => M.run t as

theorem run_append (as bs : List A) :
    M.run s (as ++ bs) = (M.run s as).bind fun t => M.run t bs := by
  induction as generalizing s with
  | nil => rfl
  | cons a as ih =>
    rw [List.cons_append, run, run, bind_assoc]
    exact congrArg _ (funext fun t => ih)

def RunOk (M : System S A) (ok : S → A → Prop) : S → List A → Prop
  | _, [] => True
  | s, a :: as => ok s a ∧ ∀ t ∈ M.next s a, M.RunOk ok t as

instance decidableRunOk [∀ s a, Decidable (ok s a)] : ∀ s as, Decidable (M.RunOk ok s as)
  | _, [] => isTrue trivial
  | s, a :: as =>
    match hn : M.next s a with
    | none => decidable_of_iff (ok s a) (by simp [RunOk, hn])
    | some t =>
      have := decidableRunOk t as
      decidable_of_iff (ok s a ∧ M.RunOk ok t as) (by simp [RunOk, hn])

theorem Reach.of_run {as : List A} (hr : M.Reach ok s) (hok : M.RunOk ok s as)
    (h : M.run s as = some t) :
    M.Reach ok t := by
  induction as generalizing s with
  | nil =>
    cases h
    exact hr
  | cons a as ih =>
    obtain ⟨u, hu, ht⟩ := bind_eq_some_iff.mp h
    exact ih (hr.step hok.1 hu) (hok.2 u hu) ht

def final (M : System S A) (as : List A) : S := (M.run M.init as).getD M.init

theorem Reach.final {as : List A} (hok : M.RunOk ok M.init as) (h : (M.run M.init as).isSome) :
    M.Reach ok (M.final as) := by
  obtain ⟨t, ht⟩ := isSome_iff_exists.mp h
  rw [System.final, ht]
  exact Reach.start.of_run hok ht

theorem runOk_any {as : List A} : M.RunOk anyStep s as := by
  induction as generalizing s with
  | nil => trivial
  | cons a as ih => exact ⟨trivial, fun t _ => ih⟩

end System
end Cervus
