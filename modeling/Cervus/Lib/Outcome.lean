/-! What a call of a kernel function can come to. -/

namespace Cervus.Lib

inductive Outcome (σ α : Type)
  | ret (s : σ) (value : α)
  | panic
  | hang

def Outcome.returns {σ α : Type} : Outcome σ α → Bool
  | .ret _ _ => true
  | _ => false

def Outcome.void {σ α : Type} : Outcome σ Unit → Outcome σ (Option α)
  | .ret s _ => .ret s none
  | .panic => .panic
  | .hang => .hang

/-- The state after a call that returns, and the value; `d` otherwise. -/
def Outcome.state {σ α : Type} (o : Outcome σ α) (d : σ) : σ :=
  match o with
  | .ret s _ => s
  | _ => d

def Outcome.result {σ α : Type} (o : Outcome σ α) (d : α) : α :=
  match o with
  | .ret _ v => v
  | _ => d

theorem Outcome.eq_ret {σ α : Type} {o : Outcome σ α} (h : o.returns = true) (s : σ) (v : α) :
    o = .ret (o.state s) (o.result v) := by
  cases o with
  | ret s v => rfl
  | panic | hang => simp [returns] at h

end Cervus.Lib
