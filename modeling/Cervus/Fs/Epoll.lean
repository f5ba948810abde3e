import Mathlib.Algebra.Group.Nat.Defs
import Mathlib.Logic.Relation
import Cervus.Errno
import Cervus.Lib.Run

/-! Epoll sets that watch files, other sets among them. -/

namespace Cervus.Epoll

open Errno List

/-- A file has one set at most, so the set stands for its file. -/
inductive File
  | set (ep : Nat)
  | other (n : Nat)
  deriving DecidableEq

def File.nested : File → Bool
  | .set _ => true
  | .other _ => false

structure Item where
  ep : Nat
  fd : Nat
  file : File
  deriving DecidableEq

structure State where
  fds : List (Nat × File)
  items : List Item

def State.fdGet (s : State) (fd : Nat) : Option File := s.fds.lookup fd

def epollMaxWatched : Nat := 65536

def epHasNested (s : State) (ep : Nat) : Bool := s.items.any fun it => it.ep == ep && it.file.nested

/-- `ep_items` of the file of a set is not empty. -/
def watched (s : State) (ep : Nat) : Bool := s.items.any fun it => it.file == .set ep

def tooDeep (s : State) (ep : Nat) : File → Bool
  | .set t => watched s ep || epHasNested s t
  | .other _ => false

def epkCtl (s : State) (ep op : Nat) (target : File) (fd : Nat) (mem : Bool) : Int × State :=
  let it : Item := ⟨ep, fd, target⟩
  match op with
  | 1 =>
    if it ∈ s.items then (-eexist, s)
    else if s.items.countP (·.ep == ep) ≥ epollMaxWatched then (-enospc, s)
    else if tooDeep s ep target then (-eloop, s)
    else if !mem then (-enomem, s)
    else (0, { s with items := s.items ++ [it] })
  | 2 => if it ∈ s.items then (0, { s with items := s.items.filter (· ≠ it) }) else (-enoent, s)
  | 3 => (if it ∈ s.items then 0 else -enoent, s)
  | _ => (-einval, s)

/-- A descriptor is an `int`, and stands for its 32 bits; `epfd` and `op` come as 64 bits,
of which only the test for the event looks at all. -/
def epollCtlArgs (s : State) (epfd op fd : Nat) (ev mem : Bool) : Int × State :=
  if op ≠ 2 ∧ ev = false then (-efault, s)
  else if epfd % 2 ^ 32 = fd then (-einval, s)
  else
    match s.fdGet fd, s.fdGet (epfd % 2 ^ 32) with
    | some target, some (.set ep) => epkCtl s ep (op % 2 ^ 32) target fd mem
    | _, _ => (-ebadf, s)

/-- `epoll_file_release` and, for the file of a set, `epk_destroy`. -/
def release (f : File) (items : List Item) : List Item :=
  items.filter fun it => it.file ≠ f ∧ .set it.ep ≠ f

inductive Action
  | create (fd : Nat) (f : File)
  | dup (fd new : Nat)
  | ctl (epfd op fd : Nat) (ev mem : Bool)
  | close (fd : Nat)

def next (s : State) : Action → Option State
  | .create fd f =>
    if s.fdGet fd = none ∧ f ∉ s.fds.map (·.2) then some { s with fds := (fd, f) :: s.fds }
      else none
  | .dup fd new =>
    if s.fdGet new = none then (s.fdGet fd).map fun f =>
      { s with fds := (new, f) :: s.fds } else none
  | .ctl epfd op fd ev mem => some (epollCtlArgs s epfd op fd ev mem).2
  | .close fd =>
    (s.fdGet fd).map fun f =>
      let fds := s.fds.filter (·.1 ≠ fd)
      { fds, items := if f ∈ fds.map (·.2) then s.items else release f s.items }

def epollSystem : System State Action where
  init := ⟨[], []⟩
  next := next

/-- `waitq_wake_pollers` on the queue of a file while the queues in `held` are locked:
`ep_item_cb` goes on to the set of every item on the file. The result is `false` when a
queue is taken again. -/
def wakePollers (items : List Item) : Nat → List File → File → Bool
  | 0, _, _ => false
  | fuel + 1, held, f =>
    f ∉ held && items.all fun it => it.file ≠ f || wakePollers items fuel (f :: held) (.set it.ep)

def Watches (s : State) (a b : Nat) : Prop := ∃ it ∈ s.items, it.ep = a ∧ it.file = .set b

/-- A set that is watched watches no set. -/
def Shallow (s : State) : Prop := ∀ a b c, Watches s a b → ¬Watches s b c

/-- The descriptor to be watched is not one of the epoll file itself. -/
def addOk (s : State) : Action → Bool
  | .ctl epfd op fd _ _ => op % 2 ^ 32 ≠ 1 ∨ s.fdGet (epfd % 2 ^ 32) = none ∨
    s.fdGet (epfd % 2 ^ 32) ≠ s.fdGet fd
  | _ => true

section
variable {s s' : State} {a b : Nat}

theorem Shallow.sub (h : Shallow s) (hs : ∀ it ∈ s'.items, it ∈ s.items) : Shallow s' :=
  fun a b c ⟨it, hi, he⟩ ⟨it', hi', he'⟩ => h a b c ⟨it, hs it hi, he⟩ ⟨it', hs it' hi', he'⟩

theorem Shallow.acyclic (h : Shallow s) (a : Nat) : ¬Relation.TransGen (Watches s) a a := by
  intro hc
  obtain ⟨b, hab, hba⟩ := Relation.TransGen.head'_iff.mp hc
  rcases Relation.ReflTransGen.cases_head hba with rfl | ⟨c, hbc, -⟩
  · exact h b b b hab hab
  · exact h a b c hab hbc

theorem wakePollers_succ {items : List Item} {n : Nat} {held : List File} {f : File} (hf : f ∉ held)
    (h : ∀ it ∈ items, it.file = f → wakePollers items n (f :: held) (.set it.ep) = true) :
    wakePollers items (n + 1) held f = true := by
  rw [wakePollers, Bool.and_eq_true, all_eq_true]
  refine ⟨decide_eq_true hf, fun it hi => ?_⟩
  by_cases he : it.file = f
  · rw [h it hi he, Bool.or_true]
  · simp [he]

/-- A file, a set that watches it and a set that watches that set: three queues at most. -/
theorem Shallow.wakes (h : Shallow s) (f : File) : wakePollers s.items 3 [] f = true := by
  have hself : ∀ a, ¬Watches s a a := fun a ha => h a a a ha ha
  refine wakePollers_succ not_mem_nil fun it hi he => wakePollers_succ ?_ fun it' hi' he' => ?_
  · rw [mem_singleton]
    exact fun hf => hself it.ep ⟨it, hi, rfl, he.trans hf.symm⟩
  · have hw : Watches s it'.ep it.ep := ⟨it', hi', rfl, he'⟩
    refine wakePollers_succ ?_ fun it'' hi'' he'' => absurd hw (h _ _ _ ⟨it'', hi'', rfl, he''⟩)
    rw [mem_cons, mem_singleton, not_or]
    refine ⟨fun hf => hself it.ep ?_, fun hf => h _ _ _ hw ⟨it, hi, rfl, he.trans hf.symm⟩⟩
    rwa [File.set.inj hf] at hw

theorem Shallow.add (h : Shallow s) {f : File} {fd : Nat} (hd : tooDeep s a f = false)
    (hne : f ≠ .set a) :
    Shallow { s with items := s.items ++ [⟨a, fd, f⟩] } := by
  have hnew : ∀ {x y}, Watches { s with items := s.items ++ [⟨a, fd, f⟩] } x y →
      Watches s x y ∨ x = a ∧ f = .set y := by
    rintro x y ⟨it, hi, hx, hy⟩
    rcases mem_append.mp hi with hi | hi
    · exact .inl ⟨it, hi, hx, hy⟩
    · obtain rfl := mem_singleton.mp hi
      exact .inr ⟨hx.symm, hy⟩
  intro x y z hxy hyz
  rcases hnew hxy with hold | ⟨rfl, rfl⟩
  · rcases hnew hyz with hyz | ⟨rfl, rfl⟩
    · exact h x y z hold hyz
    · -- the set that is given an item is watched
      obtain ⟨it, hi, -, hy⟩ := hold
      simp only [tooDeep, watched, Bool.or_eq_false_iff, any_eq_false, beq_iff_eq] at hd
      exact hd.1 it hi hy
  · rcases hnew hyz with ⟨it, hi, hy, hz⟩ | ⟨rfl, -⟩
    · -- the new target has items that are sets
      simp only [tooDeep, epHasNested, Bool.or_eq_false_iff, any_eq_false] at hd
      exact hd.2 it hi (by simp [hy, hz, File.nested])
    · exact hne rfl

/-- Each call keeps the depth, as `tooDeep` has been asked before an item is added. -/
theorem Shallow.next (h : Shallow s) {act : Action} (hok : addOk s act)
    (hn : next s act = some s') : Shallow s' := by
  cases act with
  | create fd f =>
    obtain ⟨-, rfl⟩ := of_guard hn
    exact h
  | dup fd new =>
    obtain ⟨-, hn⟩ := Option.ite_none_right_eq_some.mp hn
    obtain ⟨f, -, rfl⟩ := Option.map_eq_some_iff.mp hn
    exact h
  | close fd =>
    obtain ⟨f, -, rfl⟩ := Option.map_eq_some_iff.mp hn
    refine h.sub fun it hi => ?_
    dsimp only at hi
    split_ifs at hi
    · exact hi
    · exact (mem_filter.mp hi).1
  | ctl epfd op fd ev mem =>
    cases hn
    unfold epollCtlArgs
    split_ifs
    · exact h
    · exact h
    split
    · rename_i target ep hfd hepfd
      unfold epkCtl
      dsimp only
      split
      · rename_i hop
        split_ifs with h1 h2 h3 h4
        · exact h
        · exact h
        · exact h
        · exact h
        · refine h.add (by simpa using h3) fun he => ?_
          rw [addOk, hop, hepfd, hfd, he] at hok
          simp at hok
      · split_ifs
        · exact h.sub fun it hi => (mem_filter.mp hi).1
        · exact h
      · exact h
      · exact h
    · exact h

end

/-- No set watches itself, directly or through others, and no wake-up takes a queue
again, as long as no set is given a descriptor of its own file. -/
theorem epoll_shallow {s : State} (h : epollSystem.Reach (addOk · ·) s) :
    Shallow s ∧ (∀ a, ¬Relation.TransGen (Watches s) a a) ∧
      ∀ f, wakePollers s.items 3 [] f = true := by
  have hs : Shallow s := h.invariant (fun _ _ _ ⟨_, hi, _⟩ =>
    absurd hi not_mem_nil) fun s a t _ hi hok hn => hi.next hok hn
  exact ⟨hs, hs.acyclic, hs.wakes⟩

def nested : List Action := [.create 3 (.set 0), .create 4 (.set 1), .ctl 3 1 4 true true]

theorem epoll_shallow_nested :
    Watches (epollSystem.final nested) 0 1 ∧ ¬Watches (epollSystem.final nested) 1 0 :=
  have hw : Watches (epollSystem.final nested) 0 1 := ⟨⟨0, 4, .set 1⟩, by decide, rfl, rfl⟩
  ⟨hw, (epoll_shallow (.final (by decide) (by decide))).1 0 1 0 hw⟩

/-- A set is given a second descriptor of its own file. -/
def addSelf : List Action := [.create 3 (.set 0), .dup 3 4, .ctl 3 1 4 true true]

/-- The set watches itself, and a wake-up takes its queue again. -/
theorem watches_self : (epollSystem.run epollSystem.init addSelf).isSome ∧
    Watches (epollSystem.final addSelf) 0 0 ∧
    wakePollers (epollSystem.final addSelf).items 3 [] (.set 0) = false :=
  ⟨rfl, ⟨⟨0, 4, .set 0⟩, by decide, rfl, rfl⟩, by decide⟩

end Cervus.Epoll
