import Cervus.Lib.Ring
import Cervus.Ipc.Msg

/-! Pipes: a circular buffer that readers and writers use in critical sections of
their own, one after the other. -/

namespace Cervus.Ipc

open Function (update update_of_ne update_self)
open Errno List Disk Option

def pipeBufsz : Nat := 65536
def pipeAtomic : Nat := 4096

structure Pipe where
  buf : Nat → Byte
  head : Nat
  used : Nat
  readers : Int
  writers : Int

inductive PipeResult
  | ret (r : Int) (data : List Byte)
  | again (done : Nat)
  | block
  deriving DecidableEq

def readLoop (len : Nat) : Nat → Pipe → List Byte → List Byte × Pipe
  | 0, p, got => (got, p)
  | n + 1, p, got =>
    if got.length < len ∧ p.used > 0 then
      let chunk := min (min (pipeBufsz - p.head) p.used) (len - got.length)
      readLoop len n { p with head := (p.head + chunk) % pipeBufsz, used := p.used - chunk }
        (got ++ read p.buf p.head chunk)
    else (got, p)

def pipeReadOp (p : Pipe) (len : Nat) (nonblock interrupted : Bool) : PipeResult × Pipe :=
  if p.used > 0 then
    let r := readLoop len p.used p []
    (.ret r.1.length r.1, r.2)
  else if p.writers = 0 then (.ret 0 [], p)
  else if nonblock then (.ret (-eagain) [], p)
  else if interrupted then (.ret (-eintr) [], p)
  else (.block, p)

def writeLoop (src : List Byte) : Nat → Pipe → Nat → Nat × Pipe
  | 0, p, done => (done, p)
  | n + 1, p, done =>
    if done < src.length ∧ p.used < pipeBufsz then
      let tail := (p.head + p.used) % pipeBufsz
      let chunk := min (min (pipeBufsz - tail) (pipeBufsz - p.used)) (src.length - done)
      writeLoop src n
        { p with buf := write p.buf tail ((src.drop done).take chunk), used := p.used + chunk }
        (done + chunk)
    else (done, p)

/-- One turn of the outer loop of `pipe_write_op`, of which `done` bytes are in. -/
def pipeWriteOp (p : Pipe) (src : List Byte) (done : Nat) (nonblock interrupted : Bool) :
    PipeResult × Pipe :=
  if done < src.length then
    if p.readers = 0 then (.ret (if done > 0 then done else -epipe) [], p)
    else
      let space := pipeBufsz - p.used
      let need := if src.length ≤ pipeAtomic then src.length - done else 1
      if space ≥ need then
        let r := writeLoop src (src.length - done) p done
        (.again r.1, r.2)
      else if nonblock then (.ret (if done > 0 then done else -eagain) [], p)
      else if interrupted then (.ret (if done > 0 then done else -eintr) [], p)
      else (.block, p)
  else (.ret done [], p)

inductive PipeEnd
  | read | write | both
  deriving DecidableEq

def pipeUnrefOp (p : Pipe) (e : PipeEnd) : Pipe :=
  { p with
    readers := if e ≠ .write then p.readers - 1 else p.readers
    writers := if e ≠ .read then p.writers - 1 else p.writers }

inductive PipeCall
  | read (len : Nat)
  | write (id : Nat) (src : List Byte) (done : Nat)

structure WriteEnd where
  id : Nat
  src : List Byte
  r : Int

structure PipeState where
  p : Pipe
  calls : Nat → Option PipeCall
  stamp : Nat
  inserted : List (Nat × List Byte)
  returned : List Byte
  finished : List WriteEnd

inductive PipeAction
  | read (task len : Nat)
  | write (task : Nat) (src : List Byte)
  | turn (task : Nat) (nonblock interrupted : Bool)
  | close (e : PipeEnd)
  | opened (e : PipeEnd)

def readTurn (s : PipeState) (task len : Nat) (nonblock interrupted : Bool) : PipeState :=
  let o := pipeReadOp s.p len nonblock interrupted
  match o.1 with
  | .ret _ data =>
    { s with p := o.2, calls := update s.calls task none, returned := s.returned ++ data }
  | _ => { s with p := o.2 }

def writeTurn (s : PipeState) (task id : Nat) (src : List Byte) (done : Nat)
    (nonblock interrupted : Bool) : PipeState :=
  let o := pipeWriteOp s.p src done nonblock interrupted
  match o.1 with
  | .ret r _ =>
    { s with p := o.2, calls := update s.calls task none, finished := s.finished ++ [⟨id, src, r⟩] }
  | .again done' =>
    { s with
      p := o.2
      calls := update s.calls task (some (.write id src done'))
      inserted := s.inserted ++ [(id, (src.drop done).take (done' - done))] }
  | .block => { s with p := o.2 }

def pipeNext (s : PipeState) : PipeAction → Option PipeState
  | .read task len =>
    if s.calls task = none ∧ 0 < len then
      some { s with calls := update s.calls task (some (.read len)) }
    else none
  | .write task src =>
    if s.calls task = none then
      some { s with
        calls := update s.calls task (some (.write s.stamp src 0)), stamp := s.stamp + 1 }
    else none
  | .turn task nonblock interrupted =>
    match s.calls task with
    | none => none
    | some (.read len) => some (readTurn s task len nonblock interrupted)
    | some (.write id src done) => some (writeTurn s task id src done nonblock interrupted)
  | .close e => some { s with p := pipeUnrefOp s.p e }
  | .opened e => some { s with p := { s.p with
      readers := if e ≠ .write then s.p.readers + 1 else s.p.readers
      writers := if e ≠ .read then s.p.writers + 1 else s.p.writers } }

def pipeSystem : System PipeState PipeAction where
  init := ⟨⟨fun _ => 0, 0, 0, 1, 1⟩, fun _ => none, 0, [], [], []⟩
  next := pipeNext

def Pipe.contents (p : Pipe) : List Byte := Ring.contents pipeBufsz p.buf p.head p.used

structure Pipe.Ok (p : Pipe) : Prop where
  head : p.head < pipeBufsz
  used : p.used ≤ pipeBufsz

section
variable {p : Pipe} {len n done : Nat} {src got : List Byte}

theorem Pipe.length_contents (p : Pipe) : p.contents.length = p.used := Ring.length_contents

/-- The loop reads from the front of the ring. -/
theorem readLoop_spec (len : Nat) (got : List Byte) (hp : p.Ok) (hn : p.used ≤ n) :
    (readLoop len n p got).1 = got ++ p.contents.take (len - got.length) ∧
    (readLoop len n p got).2.contents = p.contents.drop
    (len - got.length) ∧ (readLoop len n p got).2.Ok := by
  induction n generalizing p got with
  | zero =>
    have hnil : p.contents = [] := length_eq_zero_iff.mp (by rw [p.length_contents]; omega)
    rw [readLoop, hnil, take_nil, drop_nil, append_nil]
    exact ⟨rfl, rfl, hp⟩
  | succ n ih =>
    unfold readLoop
    split_ifs with hc
    · obtain ⟨hlt, hpos⟩ := hc
      have hh := hp.head
      have hu := hp.used
      generalize hk : min (min (pipeBufsz - p.head) p.used) (len - got.length) = k
      have hk1 : k ≤ p.used := by omega
      have hk2 : p.head + k ≤ pipeBufsz := by omega
      have hk3 : k ≤ len - got.length := by omega
      have hk0 : 0 < k := by omega
      have hread : read p.buf p.head k = p.contents.take k := Ring.read_eq_take hk1 hk2
      have hdrop : ({ p with head := (p.head + k) % pipeBufsz, used := p.used - k } :
        Pipe).contents =
          p.contents.drop k := Ring.contents_drop hk1
      have hok : ({ p with head := (p.head + k) % pipeBufsz, used := p.used - k } : Pipe).Ok :=
        ⟨Nat.mod_lt _ (by decide), by show p.used - k ≤ pipeBufsz; omega⟩
      obtain ⟨h1, h2, h3⟩ := ih (got ++ read p.buf p.head k) hok (by show p.used - k ≤ n; omega)
      have hlen : (got ++ read p.buf p.head k).length = got.length + k := by simp
      rw [hdrop, hlen] at h1 h2
      have hsplit : len - got.length = k + (len - (got.length + k)) := by omega
      refine ⟨?_, ?_, h3⟩
      · rw [h1, hread, append_assoc, hsplit, ← take_add]
      · rw [h2, drop_drop, hsplit]
    · -- either the reader has enough or there is nothing left
      rcases not_and_or.mp hc with hc | hc
      · rw [Nat.sub_eq_zero_of_le (not_lt.mp hc), take_zero, drop_zero, append_nil]
        exact ⟨rfl, rfl, hp⟩
      · have hnil : p.contents = [] := length_eq_zero_iff.mp (by rw [p.length_contents]; omega)
        rw [hnil, take_nil, drop_nil, append_nil]
        exact ⟨rfl, rfl, hp⟩

structure Wrote (p : Pipe) (src : List Byte) (done : Nat) (r : Nat × Pipe) : Prop where
  count : r.1 = min src.length (done + (pipeBufsz - p.used))
  contents : r.2.contents = p.contents ++ (src.drop done).take (r.1 - done)
  ok : r.2.Ok

theorem Wrote.stop (hp : p.Ok) (hd : done ≤ src.length)
    (hc : ¬(done < src.length ∧ p.used < pipeBufsz)) :
    Wrote p src done (done, p) := by
  refine ⟨by dsimp only; omega, ?_, hp⟩
  rw [Nat.sub_self, take_zero, append_nil]

/-- The loop writes behind what the ring holds. -/
theorem writeLoop_spec (hp : p.Ok) (hd : done ≤ src.length) (hn : src.length ≤ done + n) :
    Wrote p src done (writeLoop src n p done) := by
  induction n generalizing p done with
  | zero => exact .stop hp hd (by omega)
  | succ n ih =>
    unfold writeLoop
    split_ifs with hc
    · dsimp only
      have htail : (p.head + p.used) % pipeBufsz < pipeBufsz := Nat.mod_lt _ (by decide)
      generalize hk : min (min (pipeBufsz - (p.head + p.used) % pipeBufsz) (pipeBufsz - p.used))
        (src.length - done) = k
      have hlen : ((src.drop done).take k).length = k := by
        rw [length_take, length_drop]
        omega
      set p' : Pipe := { p with
        buf := write p.buf ((p.head + p.used) % pipeBufsz) ((src.drop done).take k)
        used := p.used + k } with hp'
      have hcont : p'.contents = p.contents ++ (src.drop done).take k := by
        have : Ring.contents pipeBufsz (write p.buf ((p.head + p.used) % pipeBufsz)
          ((src.drop done).take k))
            p.head (p.used + ((src.drop done).take k).length) = _ :=
              Ring.contents_write (by omega) (by omega)
        rw [hlen] at this
        exact this
      have hok : p'.Ok := ⟨hp.head, by show p.used + k ≤ pipeBufsz; omega⟩
      have hused : p'.used = p.used + k := rfl
      obtain ⟨h1, h2, h3⟩ := ih hok (show done + k ≤ src.length by omega) (by omega)
      refine ⟨by rw [h1, hused]; omega, ?_, h3⟩
      have hsplit : (writeLoop src n p' (done + k)).1 - done =
          k + ((writeLoop src n p' (done + k)).1 - (done + k)) := by omega
      rw [h2, hcont, append_assoc, hsplit, take_add, drop_drop]
    · exact .stop hp hd hc

end

def chunksOf (inserted : List (Nat × List Byte)) (id : Nat) : List (List Byte) :=
  (inserted.filter fun e => e.1 = id).map (·.2)

/-- Of the write `id` the first `done` bytes are in, and if it is small in one piece. -/
structure Partly (inserted : List (Nat × List Byte)) (id : Nat) (src : List Byte) (done : Nat) :
    Prop where
  bytes : (chunksOf inserted id).flatten = src.take done
  le : done ≤ src.length
  whole : src.length ≤ pipeAtomic → chunksOf inserted id = [] ∨ chunksOf inserted id = [src]

structure PipeInv (s : PipeState) : Prop where
  ok : s.p.Ok
  stream : s.returned ++ s.p.contents = (s.inserted.map (·.2)).flatten
  old : ∀ e ∈ s.inserted, e.1 < s.stamp
  call : ∀ t id src done, s.calls t = some (.write id src done) →
    id < s.stamp ∧ Partly s.inserted id src done
  apart : ∀ t t' id src src' done done', s.calls t = some (.write id src done) →
    s.calls t' = some (.write id src' done') → t = t'
  ended : ∀ f ∈ s.finished, f.id < s.stamp ∧ Partly s.inserted f.id f.src f.r.toNat ∧
    ∀ t src done, s.calls t ≠ some (.write f.id src done)

section
variable {s : PipeState} {t : Nat}

theorem chunksOf_append (inserted : List (Nat × List Byte)) (id id' : Nat) (c : List Byte) :
    chunksOf (inserted ++ [(id, c)]) id' =
      if id = id' then chunksOf inserted id' ++ [c] else chunksOf inserted id' := by
  unfold chunksOf
  split_ifs with h <;> simp [h]

variable {inserted : List (Nat × List Byte)} {src : List Byte} {done id : Nat} {p : Pipe}

theorem chunksOf_fresh (h : ∀ e ∈ inserted, e.1 < id) : chunksOf inserted id = [] := by
  unfold chunksOf
  rw [map_eq_nil_iff, filter_eq_nil_iff]
  intro e he
  simpa using (h e he).ne

theorem Partly.other {id' : Nat} {c : List Byte} (h : Partly inserted id src done)
    (hne : id' ≠ id) : Partly (inserted ++ [(id', c)]) id src done := by
  have he : chunksOf (inserted ++ [(id', c)]) id = chunksOf inserted id := by
    rw [chunksOf_append, if_neg hne]
  exact ⟨he ▸ h.bytes, h.le, he ▸ h.whole⟩

theorem Partly.step {done' : Nat} (h : Partly inserted id src done) (h1 : done < src.length)
    (h2 : done ≤ done') (h3 : done' ≤ src.length)
    (hw : src.length ≤ pipeAtomic → done' = src.length) :
    Partly (inserted ++ [(id, (src.drop done).take (done' - done))]) id src done' := by
  have he : chunksOf (inserted ++ [(id, (src.drop done).take (done' - done))]) id =
      chunksOf inserted id ++ [(src.drop done).take (done' - done)] := by
    rw [chunksOf_append, if_pos rfl]
  refine ⟨?_, h3, fun hs => .inr ?_⟩
  · rw [he, flatten_append, h.bytes, flatten_singleton, ← take_add]
    congr 1
    omega
  · -- nothing was in before, so the chunk is all of the data
    have hnil : chunksOf inserted id = [] := by
      refine (h.whole hs).resolve_right fun hsrc => ?_
      have hb := h.bytes
      rw [hsrc, flatten_singleton] at hb
      have := congrArg length hb
      rw [length_take] at this
      omega
    have hd : done = 0 := by
      have hb := congrArg length h.bytes
      rw [hnil, flatten_nil, length_take, length_nil] at hb
      omega
    rw [he, hnil, hw hs, hd, drop_zero, Nat.sub_zero, take_length]
    rfl

theorem pipeReadOp_cases (hp : p.Ok) (len : Nat) (nonblock interrupted : Bool) :
    (∃ r data, (pipeReadOp p len nonblock interrupted).1 = .ret r data ∧
      data ++ (pipeReadOp p len nonblock interrupted).2.contents = p.contents ∧
      (pipeReadOp p len nonblock interrupted).2.Ok) ∨
    pipeReadOp p len nonblock interrupted = (.block, p) := by
  unfold pipeReadOp
  split_ifs
  · obtain ⟨h1, h2, h3⟩ := readLoop_spec len [] hp (le_refl p.used)
    refine .inl ⟨_, _, rfl, ?_, h3⟩
    rw [h1, h2, nil_append, take_append_drop]
  · exact .inl ⟨_, _, rfl, rfl, hp⟩
  · exact .inl ⟨_, _, rfl, rfl, hp⟩
  · exact .inl ⟨_, _, rfl, rfl, hp⟩
  · exact .inr rfl

inductive WriteTurn (p : Pipe) (src : List Byte) (done : Nat) : PipeResult × Pipe → Prop
  | ret (r : Int) (hr : r.toNat = done) : WriteTurn p src done (.ret r [], p)
  | again (done' : Nat) (p' : Pipe) (h1 : done < src.length) (h2 : done ≤ done')
    (h3 : done' ≤ src.length)
      (hw : src.length ≤ pipeAtomic → done' = src.length)
      (hc : p'.contents = p.contents ++ (src.drop done).take (done' - done)) (hok : p'.Ok) :
      WriteTurn p src done (.again done', p')
  | block : WriteTurn p src done (.block, p)

theorem toNat_done {e : Int} (he : 0 ≤ e) (done : Nat) :
    (if done > 0 then (done : Int) else -e).toNat = done := by
  split_ifs <;> omega

theorem pipeWriteOp_turn (hp : p.Ok) (hd : done ≤ src.length) (nonblock interrupted : Bool) :
    WriteTurn p src done (pipeWriteOp p src done nonblock interrupted) := by
  unfold pipeWriteOp
  by_cases hlt : done < src.length
  swap
  · rw [if_neg hlt]
    exact .ret _ (Int.toNat_natCast done)
  rw [if_pos hlt]
  by_cases hr : p.readers = 0
  · rw [if_pos hr]
    exact .ret _ (toNat_done (by decide) done)
  rw [if_neg hr]
  by_cases hspace : pipeBufsz - p.used ≥ if src.length ≤ pipeAtomic then src.length - done else 1
  · rw [if_pos hspace]
    obtain ⟨h1, h2, h3⟩ := writeLoop_spec (n := src.length - done) hp hd (by omega)
    refine .again _ _ hlt (by omega) (by omega) (fun hs => ?_) h2 h3
    rw [if_pos hs] at hspace
    omega
  · rw [if_neg hspace]
    cases nonblock with
    | true => exact .ret _ (toNat_done (by decide) done)
    | false =>
      cases interrupted with
      | true => exact .ret _ (toNat_done (by decide) done)
      | false => exact .block

variable {calls : Nat → Option PipeCall}

theorem update_none_write {t' : Nat} (h : update s.calls t none t' = some (.write id src done)) :
    s.calls t' = some (.write id src done) := by
  by_cases ht : t' = t
  · subst ht
    rw [update_self] at h
    cases h
  · rwa [update_of_ne ht] at h

section

variable (h : PipeInv s)
include h

theorem PipeInv.frame (hok : p.Ok) (hc : p.contents = s.p.contents) : PipeInv { s with p := p } :=
  ⟨hok, by rw [hc]; exact h.stream, h.old, h.call, h.apart, h.ended⟩

theorem PipeInv.readTurn (len : Nat) (nonblock interrupted : Bool) :
    PipeInv (readTurn s t len nonblock interrupted) := by
  unfold Ipc.readTurn
  rcases pipeReadOp_cases h.ok len nonblock interrupted with ⟨r, data, ho, hc, hok⟩ | ho
  · simp only [ho]
    refine ⟨hok, ?_, h.old, fun t' id src done hcall =>
      h.call t' id src done (update_none_write hcall), ?_,
      fun f hf => ⟨(h.ended f hf).1, (h.ended f hf).2.1, ?_⟩⟩
    · rw [append_assoc, hc]
      exact h.stream
    · exact fun t1 t2 id src src' done done' h1 h2 =>
        h.apart t1 t2 id src src' done done' (update_none_write h1) (update_none_write h2)
    · exact fun t' src done hcall => (h.ended f hf).2.2 t' src done (update_none_write hcall)
  · simp only [ho]
    exact h

/-- One turn of a write: its bytes go in behind those of the calls before it. -/
theorem PipeInv.writeTurn (hcall : s.calls t = some (.write id src done))
    (nonblock interrupted : Bool) :
    PipeInv (writeTurn s t id src done nonblock interrupted) := by
  obtain ⟨hid, hpart⟩ := h.call t id src done hcall
  have hturn := pipeWriteOp_turn h.ok hpart.le nonblock interrupted
  unfold Ipc.writeTurn
  generalize pipeWriteOp s.p src done nonblock interrupted = o at hturn
  cases hturn with
  | block => exact h
  | ret r hr =>
    refine ⟨h.ok, h.stream, h.old, fun t' id src done hc =>
      h.call t' id src done (update_none_write hc), ?_, ?_⟩
    · exact fun t1 t2 id src src' done done' h1 h2 =>
        h.apart t1 t2 id src src' done done' (update_none_write h1) (update_none_write h2)
    intro f hf
    rcases mem_append.mp hf with hf | hf
    · exact ⟨(h.ended f hf).1, (h.ended f hf).2.1,
        fun t' src done hc => (h.ended f hf).2.2 t' src done (update_none_write hc)⟩
    · obtain rfl := mem_singleton.mp hf
      refine ⟨hid, by rw [hr]; exact hpart, fun t' src' done' hc => ?_⟩
      -- no other task has the number of the write that ended
      have ht : t' = t := h.apart t' t id _ _ _ _ (update_none_write hc) hcall
      subst ht
      simp only [update_self, reduceCtorEq] at hc
  | again done' p' h1 h2 h3 hw hc hok =>
    have hother : ∀ t' id' src' d, t' ≠ t → s.calls t' = some (.write id' src' d) → id ≠ id' := by
      rintro t' id' src' d ht hc rfl
      exact ht (h.apart t' t id src' src d done hc hcall)
    refine ⟨hok, ?_, ?_, ?_, ?_, ?_⟩
    · simp only [hc, ← append_assoc, h.stream, map_append, flatten_append, map_cons,
        map_nil, flatten_singleton]
    · intro e he
      rcases mem_append.mp he with he | he
      · exact h.old e he
      · obtain rfl := mem_singleton.mp he
        exact hid
    · intro t' id' src' d hc
      by_cases ht : t' = t
      · subst ht
        simp only [update_self, some.injEq, PipeCall.write.injEq] at hc
        obtain ⟨rfl, rfl, rfl⟩ := hc
        exact ⟨hid, hpart.step h1 h2 h3 hw⟩
      · simp only [update_of_ne ht] at hc
        exact ⟨(h.call t' id' src' d hc).1, (h.call t' id' src' d hc).2.other
          (hother t' id' src' d ht hc)⟩
    · intro t1 t2 id' src1 src2 d1 d2 hc1 hc2
      by_cases ht1 : t1 = t <;> by_cases ht2 : t2 = t
      · rw [ht1, ht2]
      · simp only [ht1, update_self, some.injEq, PipeCall.write.injEq] at hc1
        simp only [update_of_ne ht2] at hc2
        exact absurd hc1.1 (hother t2 id' src2 d2 ht2 hc2)
      · simp only [ht2, update_self, some.injEq, PipeCall.write.injEq] at hc2
        simp only [update_of_ne ht1] at hc1
        exact absurd hc2.1 (hother t1 id' src1 d1 ht1 hc1)
      · simp only [update_of_ne ht1] at hc1
        simp only [update_of_ne ht2] at hc2
        exact h.apart t1 t2 id' src1 src2 d1 d2 hc1 hc2
    · intro f hf
      obtain ⟨hf1, hf2, hf3⟩ := h.ended f hf
      have hne : id ≠ f.id := fun e => hf3 t src done (e ▸ hcall)
      refine ⟨hf1, hf2.other hne, fun t' src' d hc => ?_⟩
      by_cases ht : t' = t
      · simp only [ht, update_self, some.injEq, PipeCall.write.injEq] at hc
        exact hne hc.1
      · simp only [update_of_ne ht] at hc
        exact hf3 t' src' d hc

theorem PipeInv.start (src : List Byte) : PipeInv { s with
    calls := update s.calls t (some (.write s.stamp src 0)), stamp := s.stamp + 1 } := by
  have hold : ∀ t' id src' d, s.calls t' = some (.write id src' d) → id ≠ s.stamp :=
    fun t' id src' d hc => (h.call t' id src' d hc).1.ne
  have hnew : ∀ t' id src' d, update s.calls t (some (.write s.stamp src 0)) t' =
      some (.write id src' d) → (t' = t ∧ id = s.stamp ∧ src' = src ∧ d = 0) ∨
        (s.calls t' = some (.write id src' d)) := by
    intro t' id src' d hc
    by_cases ht : t' = t
    · simp only [ht, update_self, some.injEq, PipeCall.write.injEq] at hc
      exact .inl ⟨ht, hc.1.symm, hc.2.1.symm, hc.2.2.symm⟩
    · rw [update_of_ne ht] at hc
      exact .inr hc
  refine ⟨h.ok, h.stream, fun e he => Nat.lt_succ_of_lt (h.old e he), ?_, ?_, ?_⟩
  · intro t' id src' d hc
    rcases hnew t' id src' d hc with ⟨-, rfl, rfl, rfl⟩ | hc
    · have hnil := chunksOf_fresh h.old
      exact ⟨Nat.lt_succ_self _, ⟨by rw [hnil]; rfl, Nat.zero_le _, fun _ => .inl hnil⟩⟩
    · exact ⟨Nat.lt_succ_of_lt (h.call t' id src' d hc).1, (h.call t' id src' d hc).2⟩
  · intro t1 t2 id src1 src2 d1 d2 hc1 hc2
    rcases hnew t1 id src1 d1 hc1 with ⟨ht1, he1, -⟩ | ho1 <;>
      rcases hnew t2 id src2 d2 hc2 with ⟨ht2, he2, -⟩ | ho2
    · exact ht1.trans ht2.symm
    · exact absurd he1 (hold _ _ _ _ ho2)
    · exact absurd he2 (hold _ _ _ _ ho1)
    · exact h.apart t1 t2 id src1 src2 d1 d2 ho1 ho2
  · intro f hf
    obtain ⟨hf1, hf2, hf3⟩ := h.ended f hf
    refine ⟨Nat.lt_succ_of_lt hf1, hf2, fun t' src' d hc => ?_⟩
    rcases hnew t' f.id src' d hc with ⟨-, he, -⟩ | hc
    · exact absurd he hf1.ne
    · exact hf3 t' src' d hc

theorem PipeInv.startRead (len : Nat) :
    PipeInv { s with calls := update s.calls t (some (.read len)) } := by
  have hold : ∀ t' id src' d, update s.calls t (some (.read len)) t' = some (.write id src' d) →
      s.calls t' = some (.write id src' d) := by
    intro t' id src' d hc
    by_cases ht : t' = t
    · simp [ht] at hc
    · rwa [update_of_ne ht] at hc
  exact ⟨h.ok, h.stream, h.old, fun t' id src' d hc => h.call t' id src' d (hold _ _ _ _ hc),
    fun t1 t2 id src1 src2 d1 d2 h1 h2 => h.apart t1 t2 id src1 src2 d1 d2 (hold _ _ _ _ h1)
      (hold _ _ _ _ h2),
    fun f hf => ⟨(h.ended f hf).1, (h.ended f hf).2.1,
      fun t' src' d hc => (h.ended f hf).2.2 t' src' d (hold _ _ _ _ hc)⟩⟩

theorem PipeInv.next {u : PipeState} {a : PipeAction} (hn : pipeNext s a = some u) : PipeInv u := by
  cases a with
  | read task len =>
    simp only [pipeNext] at hn
    split_ifs at hn
    cases hn
    exact h.startRead len
  | write task src =>
    simp only [pipeNext] at hn
    split_ifs at hn
    cases hn
    exact h.start src
  | turn task nonblock interrupted =>
    simp only [pipeNext] at hn
    split at hn
    · cases hn
    · cases hn
      exact h.readTurn _ nonblock interrupted
    next hcall =>
      cases hn
      exact h.writeTurn hcall nonblock interrupted
  | close e | opened e =>
    cases hn
    exact h.frame ⟨h.ok.head, h.ok.used⟩ rfl

end

theorem PipeInv.init : PipeInv pipeSystem.init :=
  ⟨⟨by decide, by decide⟩, rfl, nofun, nofun, nofun, nofun⟩

end

def writeThenRead : List PipeAction :=
  [.write 1 [1, 2, 3], .read 2 2, .turn 1 false false, .turn 1 false false, .turn 2 false false]

end Cervus.Ipc
