import Mathlib.Data.List.GetD
import Mathlib.Data.List.InsertIdx
import Mathlib.Data.List.Nodup
import Mathlib.Tactic.NormNum
import Cervus.Errno
import Cervus.Lib.Chain
import Cervus.Lib.Run

/-! Message queues: a singly linked list of messages with a tail pointer, appended
to by `sys_msgsnd` and searched by `sys_msgrcv`. -/

namespace Cervus.Ipc

open Lib Errno List Option Function

abbrev Byte := BitVec 8

def msgMax : Nat := 8192
def msgMnb : Nat := 16384

structure Kmsg where
  type : Int
  data : List Byte
  deriving DecidableEq

def Kmsg.len (m : Kmsg) : Nat := m.data.length

/-- Messages are nodes at non-zero addresses: `link 0` is `head`, `link m` is `m->next`. -/
structure Msq where
  link : Nat → Nat
  msg : Nat → Kmsg
  tail : Nat
  cbytes : Nat
  qnum : Nat
  qbytes : Nat

structure MsgEnv where
  found : Bool
  permitted : Bool
  interrupted : Bool
  copied : Bool
  deriving DecidableEq

inductive MsgResult
  | ret (r : Int)
  | got (node : Nat) (type : Int) (data : List Byte)
  | block
  deriving DecidableEq

def Msq.append (q : Msq) (node : Nat) (m : Kmsg) : Msq :=
  let link := update q.link node 0
  { q with
    link := if q.tail ≠ 0 then update link q.tail node else update link 0 node
    msg := update q.msg node m
    tail := node
    cbytes := q.cbytes + m.len
    qnum := q.qnum + 1 }

/-- One turn of the loop of `sys_msgsnd`; `node` is what `kmalloc` gave. -/
def sysMsgsnd (q : Msq) (env : MsgEnv) (node : Option Nat) (m : Kmsg) (nowait : Bool) :
    MsgResult × Msq :=
  if m.len > msgMax then (.ret (-einval), q)
  else
    match node with
    | none => (.ret (-enomem), q)
    | some node =>
      if !env.copied then (.ret (-efault), q)
      else if m.type ≤ 0 then (.ret (-einval), q)
      else if !env.found then (.ret (-einval), q)
      else if !env.permitted then (.ret (-eacces), q)
      else if q.cbytes + m.len ≤ q.qbytes ∧ q.qnum < q.qbytes then (.ret 0, q.append node m)
      else if nowait then (.ret (-eagain), q)
      else if env.interrupted then (.ret (-eintr), q)
      else (.block, q)

def neg64 (type : Int) : Int := (-type).bmod (2 ^ 64)

def pickFrom (q : Msq) (type : Int) (except : Bool) : Nat → Nat → Option Nat → Option Nat
  | 0, _, best => best
  | n + 1, pp, best =>
    let m := q.link pp
    if m = 0 then best
    else if type = 0 then some pp
    else if type > 0 then
      if (if except then (q.msg m).type ≠ type else (q.msg m).type = type) then some pp
      else pickFrom q type except n m best
    else if (q.msg m).type ≤ neg64 type ∧
        (∀ b ∈ best, (q.msg m).type < (q.msg (q.link b)).type) then
      pickFrom q type except n m (some pp)
    else pickFrom q type except n m best

def pick (q : Msq) (type : Int) (except : Bool) : Option Nat :=
  pickFrom q type except (q.qnum + 1) 0 none

def Msq.unlink (q : Msq) (pp : Nat) : Msq :=
  let m := q.link pp
  let link := update q.link pp (q.link m)
  { q with
    link := link
    tail := if q.tail = m then chainLast link q.qnum (link 0) else q.tail
    cbytes := q.cbytes - (q.msg m).len
    qnum := q.qnum - 1 }

structure RecvArgs where
  size : Nat
  type : Int
  except : Bool
  noerror : Bool
  nowait : Bool
  deriving DecidableEq

/-- One turn of the loop of `sys_msgrcv` and, when a message is taken, its copy to
the user. -/
def sysMsgrcv (q : Msq) (env : MsgEnv) (a : RecvArgs) : MsgResult × Msq :=
  if a.size ≥ 2 ^ 63 then (.ret (-einval), q)
  else if !env.found then (.ret (-einval), q)
  else if !env.permitted then (.ret (-eacces), q)
  else
    match pick q a.type a.except with
    | some pp =>
      let m := q.msg (q.link pp)
      if m.len > a.size ∧ !a.noerror then (.ret (-e2big), q)
      else if !env.copied then (.ret (-efault), q.unlink pp)
      else (.got (q.link pp) m.type (m.data.take (min m.len a.size)), q.unlink pp)
    | none =>
      if a.nowait then (.ret (-enomsg), q)
      else if env.interrupted then (.ret (-eintr), q)
      else (.block, q)

def chainNodes (next : Nat → Nat) : Nat → Nat → List Nat
  | 0, _ => []
  | n + 1, p => if p = 0 then [] else p :: chainNodes next n (next p)

def Msq.nodes (q : Msq) : List Nat := chainNodes q.link q.qnum (q.link 0)

abbrev SentLog := List (Kmsg × Bool)

def unreceived (log : SentLog) : List Kmsg := (log.filter fun e => !e.2).map (·.1)

def receiveAt : Nat → SentLog → SentLog
  | _, [] => []
  | i, (m, true) :: log => (m, true) :: receiveAt i log
  | 0, (m, false) :: log => (m, true) :: log
  | i + 1, (m, false) :: log => (m, false) :: receiveAt i log

structure MsgState where
  q : Msq
  log : SentLog

inductive MsgAction
  | send (env : MsgEnv) (node : Option Nat) (m : Kmsg) (nowait : Bool)
  | recv (env : MsgEnv) (a : RecvArgs)
  | set (qbytes : Nat)

/-- `kmalloc` gives no node that is on the list. -/
def msgNext (s : MsgState) : MsgAction → Option MsgState
  | .send env node m nowait =>
    if ∀ n ∈ node, n ≠ 0 ∧ n ∉ s.q.nodes then
      let r := sysMsgsnd s.q env node m nowait
      some ⟨r.2, if r.1 = .ret 0 then s.log ++ [(m, false)] else s.log⟩
    else none
  | .recv env a =>
    let r := sysMsgrcv s.q env a
    some ⟨r.2, match r.1 with
      | .got node _ _ => receiveAt (s.q.nodes.idxOf node) s.log
      | _ => s.log⟩
  | .set qbytes => some { s with q := { s.q with qbytes := qbytes } }

def msqCreate : Msq := ⟨fun _ => 0, fun _ => ⟨0, []⟩, 0, 0, 0, msgMnb⟩

def msgSystem : System MsgState MsgAction where
  init := ⟨msqCreate, []⟩
  next := msgNext

def Suits (type : Int) (except : Bool) (m : Kmsg) : Prop :=
  if type = 0 then True
  else if type > 0 then (if except then m.type ≠ type else m.type = type)
  else m.type ≤ -type

instance (type : Int) (except : Bool) (m : Kmsg) : Decidable (Suits type except m) :=
  inferInstanceAs (Decidable (if type = 0 then True
    else if type > 0 then (if except then m.type ≠ type else m.type = type)
    else m.type ≤ -type))

/-- The message a receive has to take is the `i`th. -/
structure Chosen (l : List Kmsg) (type : Int) (except : Bool) (i : Nat) (m : Kmsg) : Prop where
  here : l[i]? = some m
  suits : Suits type except m
  first : ∀ j k, l[j]? = some k → Suits type except k →
    if type < 0 then m.type ≤ k.type ∧ (j < i → m.type < k.type) else i ≤ j

/-- The list in memory is `l`. -/
structure Holds (q : Msq) (l : List Kmsg) : Prop where
  chain : Chain q.link (q.link 0) q.nodes
  nodup : q.nodes.Nodup
  msgs : q.nodes.map q.msg = l
  tail : q.tail = q.nodes.getLastD 0
  cbytes : q.cbytes = (l.map Kmsg.len).sum
  qnum : q.qnum = l.length

/-- What a receive does to a queue that holds `l`. -/
def RecvRight (l : List Kmsg) (a : RecvArgs) (q : Msq) (r : MsgResult × Msq) : Prop :=
  match r.1 with
  | .got _ type data => ∃ i m, Chosen l a.type a.except i m ∧ type = m.type ∧
      data = m.data.take (min m.len a.size) ∧ Holds r.2 (l.eraseIdx i)
  | .block => r.2 = q ∧ ∀ m ∈ l, ¬Suits a.type a.except m
  | .ret e => r.2 = q ∧ (e = -enomsg ∨ e = -eintr → ∀ m ∈ l, ¬Suits a.type a.except m) ∧
      (e = -e2big → ∃ i m, Chosen l a.type a.except i m ∧ m.len > a.size)

/-- A type is any 64-bit number but the least, and what is taken can be copied out. -/
def RecvOk (env : MsgEnv) (a : RecvArgs) : Prop :=
  -2 ^ 63 < a.type ∧ a.type < 2 ^ 63 ∧ env.copied = true

def MsgOk (_ : MsgState) : MsgAction → Prop
  | .recv env a => RecvOk env a
  | _ => True

section
variable {q : Msq} {l : List Kmsg}

theorem chainNodes_eq {next : Nat → Nat} {p : Nat} {l : List Nat} (h : Chain next p l) :
    chainNodes next l.length p = l := by
  induction l generalizing p with
  | nil => rfl
  | cons x l ih =>
    obtain ⟨rfl, hp, hc⟩ := h
    rw [length_cons, chainNodes, if_neg hp, ih hc]

theorem Holds.of_nodes (nodes : List Nat) (hc : Chain q.link (q.link 0) nodes) (hn : nodes.Nodup)
    (hm : nodes.map q.msg = l) (ht : q.tail = nodes.getLastD 0)
    (hb : q.cbytes = (l.map Kmsg.len).sum) (hq : q.qnum = l.length) :
    Holds q l ∧ q.nodes = nodes := by
  have hlen : q.qnum = nodes.length := by rw [hq, ← hm, length_map]
  have hnodes : q.nodes = nodes := by rw [Msq.nodes, hlen, chainNodes_eq hc]
  exact ⟨⟨by rwa [hnodes], by rwa [hnodes], by rwa [hnodes], by rwa [hnodes], hb, hq⟩, hnodes⟩

theorem Holds.empty : Holds msqCreate [] := ⟨rfl, nodup_nil, rfl, rfl, rfl, rfl⟩

theorem Holds.length (h : Holds q l) : q.nodes.length = l.length := by rw [← h.msgs, length_map]

theorem Holds.zero_notMem (h : Holds q l) : 0 ∉ q.nodes := fun h0 => h.chain.ne_zero h0 rfl

theorem getLast_zero_cons (nodes : List Nat) :
    (0 :: nodes).getLast (cons_ne_nil _ _) = nodes.getLastD 0 := by
  cases nodes with
  | nil => rfl
  | cons x l => rw [getLast_cons (cons_ne_nil _ _)]; rfl

theorem Holds.append {node : Nat} {m : Kmsg} (h : Holds q l) (h0 : node ≠ 0) (hm : node ∉ q.nodes) :
    Holds (q.append node m) (l ++ [m]) := by
  have hz := h.zero_notMem
  have hchain := h.chain.snoc (nodup_cons.mpr ⟨hz, h.nodup⟩)
    (by rw [mem_cons]; exact fun e => e.elim h0 hm) h0
  have hlink : (q.append node m).link = update (update q.link node 0)
      ((0 :: q.nodes).getLast (cons_ne_nil _ _)) node := by
    simp only [Msq.append]
    rw [getLast_zero_cons, ← h.tail]
    split_ifs with ht
    · rfl
    · rw [not_not.mp ht]
  refine (Holds.of_nodes (q.nodes ++ [node]) ?_ ?_ ?_ ?_ ?_ ?_).1
  · rw [hlink]
    exact hchain
  · rw [nodup_append]
    exact ⟨h.nodup, nodup_singleton _, fun x hx y hy e =>
      hm (by rw [← mem_singleton.mp hy, ← e]; exact hx)⟩
  · rw [map_append, ← h.msgs]
    congr 1
    · refine map_congr_left fun x hx => Function.update_of_ne ?_ _ _
      exact fun e => hm (e ▸ hx)
    · simp [Msq.append]
  · simp [Msq.append]
  · simp [Msq.append, h.cbytes]
  · simp [Msq.append, h.qnum]

theorem neg64_eq {type : Int} (h1 : -2 ^ 63 < type) (h2 : type < 0) : neg64 type = -type := by
  rw [neg64, Int.bmod_def]
  have hm : (-type) % ((2 ^ 64 : Nat) : Int) = -type :=
    Int.emod_eq_of_lt (by omega) (by norm_num; omega)
  rw [hm, if_pos (by norm_num; omega)]

def Msq.pp (q : Msq) (i : Nat) : Nat := (0 :: q.nodes).getD i 0

theorem Holds.link_pp (h : Holds q l) {i : Nat} {m : Kmsg} (hi : l[i]? = some m) :
    ∃ x, q.nodes[i]? = some x ∧ q.link (q.pp i) = x ∧ x ≠ 0 ∧ q.msg x = m ∧ q.pp (i + 1) = x := by
  rw [← h.msgs, List.getElem?_map] at hi
  obtain ⟨x, hx, rfl⟩ := Option.map_eq_some_iff.mp hi
  obtain ⟨hlt, -⟩ := List.getElem?_eq_some_iff.mp hx
  have hd : q.nodes.getD i 0 = x := by rw [getD_eq_getElem?_getD, hx]; rfl
  refine ⟨x, hx, ?_, h.chain.ne_zero (mem_of_getElem? hx), rfl, hd⟩
  rw [Msq.pp, h.chain.next_get i hlt.le, hd]

theorem Holds.link_end (h : Holds q l) : q.link (q.pp l.length) = 0 := by
  rw [Msq.pp, h.chain.next_get _ h.length.ge, getD_eq_default _ _ h.length.le]

/-- What the messages before the `i`th leave as the best so far. -/
def Best (l : List Kmsg) (type : Int) (except : Bool) (i : Nat) : Option Nat → Prop
  | none => ∀ j k, j < i → l[j]? = some k → ¬Suits type except k
  | some b => ∃ m, l[b]? = some m ∧ b < i ∧ Suits type except m ∧ ∀ j k, j < i → l[j]? = some k →
      Suits type except k → if type < 0 then m.type ≤ k.type ∧ (j < b → m.type < k.type) else b ≤ j

section
variable {type : Int} {except : Bool} {i : Nat} {m : Kmsg} {best : Option Nat}

theorem forall_lt_next {P : Nat → Kmsg → Prop} (hi : l[i]? = some m)
    (h : ∀ j k, j < i → l[j]? = some k → P j k) (hm : P i m) (j : Nat) (k : Kmsg) (hj : j < i + 1)
    (hk : l[j]? = some k) : P j k := by
  rcases Nat.lt_succ_iff_lt_or_eq.mp hj with hj | rfl
  · exact h j k hj hk
  · rw [hi] at hk
    exact some.inj hk ▸ hm

theorem Best.skip (h : Best l type except i best) (hi : l[i]? = some m)
    (hm : ¬Suits type except m) :
    Best l type except (i + 1) best := by
  cases best with
  | none => exact forall_lt_next hi h hm
  | some b =>
    obtain ⟨n, hb, hlt, hs, hall⟩ := h
    exact ⟨n, hb, by omega, hs, forall_lt_next hi hall fun hsm => absurd hsm hm⟩

theorem Best.keep {b : Nat} {n : Kmsg} (h : Best l type except i (some b)) (hi : l[i]? = some m)
    (hb : l[b]? = some n) (ht : type < 0) (hm : n.type ≤ m.type) :
    Best l type except (i + 1) (some b) := by
  obtain ⟨n', hb', hlt, hs, hall⟩ := h
  obtain rfl : n = n' := some.inj (hb.symm.trans hb')
  refine ⟨n, hb, by omega, hs, forall_lt_next hi hall fun _ => ?_⟩
  rw [if_pos ht]
  exact ⟨hm, fun hib => absurd hib (by omega)⟩

theorem Best.take (h : Best l type except i best) (hi : l[i]? = some m) (hm : Suits type except m)
    (hbest : ∀ b ∈ best, type < 0 ∧ ∀ n, l[b]? = some n → m.type < n.type) :
    Best l type except (i + 1) (some i) := by
  refine ⟨m, hi, by omega, hm, forall_lt_next hi (fun j k hj hk hsk => ?_) fun _ => ?_⟩
  · cases best with
    | none => exact absurd hsk (h j k hj hk)
    | some b =>
      obtain ⟨n, hb, -, -, hall⟩ := h
      obtain ⟨ht, hlt⟩ := hbest b rfl
      have hjk := hall j k hj hk hsk
      rw [if_pos ht] at hjk ⊢
      have := hlt n hb
      exact ⟨by omega, fun _ => by omega⟩
  · split_ifs
    · exact ⟨le_refl _, fun hjj => absurd hjj (lt_irrefl _)⟩
    · exact le_refl _

theorem Best.first (h : Best l type except i none) (hi : l[i]? = some m) (hm : Suits type except m)
    (ht : ¬type < 0) : Best l type except l.length (some i) := by
  obtain ⟨hlt, -⟩ := List.getElem?_eq_some_iff.mp hi
  refine ⟨m, hi, hlt, hm, fun j k _ hk hsk => ?_⟩
  rw [if_neg ht]
  by_contra hj
  exact h j k (by omega) hk hsk

/-- The walk over the queue finds the best message, by induction on what is left of it. -/
theorem pickFrom_spec (h : Holds q l) (hmin : -2 ^ 63 < type) (n : Nat) (hn : l.length < i + n)
    (hi : i ≤ l.length) (hpos : ¬type < 0 → best = none) (hb : Best l type except i best) :
    ∃ r, pickFrom q type except n (q.pp i) (best.map q.pp) = r.map q.pp ∧
      Best l type except l.length r := by
  induction n generalizing i best with
  | zero => omega
  | succ n ih =>
    unfold pickFrom
    cases hm : l[i]? with
    | none =>
      obtain rfl : i = l.length := le_antisymm hi (List.getElem?_eq_none_iff.mp hm)
      rw [h.link_end, if_pos rfl]
      exact ⟨best, rfl, hb⟩
    | some m =>
      obtain ⟨hlt, -⟩ := List.getElem?_eq_some_iff.mp hm
      obtain ⟨x, -, hx, hx0, rfl, hpp⟩ := h.link_pp hm
      rw [hx, if_neg hx0]
      by_cases ht0 : type = 0
      · rw [if_pos ht0]
        obtain rfl := hpos (by omega)
        exact ⟨some i, rfl, hb.first hm (by rw [Suits, if_pos ht0]; trivial) (by omega)⟩
      rw [if_neg ht0, ← hpp]
      by_cases htp : type > 0
      · rw [if_pos htp]
        obtain rfl := hpos (by omega)
        have hsuits : Suits type except (q.msg (q.pp (i + 1))) ↔ if except = true then
            (q.msg (q.pp (i + 1))).type ≠ type else (q.msg (q.pp (i + 1))).type = type := by
          rw [Suits, if_neg ht0, if_pos htp]
        rw [hpp] at hsuits ⊢
        split_ifs with he hmat hmat
        all_goals first
          | exact ⟨some i, rfl, hb.first hm (hsuits.mpr (by simpa [he] using hmat)) (by omega)⟩
          | (rw [← hpp]
             exact ih (by omega) (by omega) hpos
              (hb.skip hm fun hs => hmat (by simpa [he] using hsuits.mp hs)))
      · rw [if_neg htp, hpp, neg64_eq hmin (by omega)]
        have hsuits : Suits type except (q.msg x) ↔ (q.msg x).type ≤ -type := by
          rw [Suits, if_neg ht0, if_neg htp]
        split_ifs with hbetter
        · rw [← hpp]
          refine ih (by omega) (by omega) (fun hn => absurd hn (by omega))
            (hb.take hm (hsuits.mpr hbetter.1) fun b hbb => ⟨by omega, fun k hk => ?_⟩)
          obtain ⟨y, -, hy, -, rfl, -⟩ := h.link_pp hk
          have := hbetter.2 (q.pp b) (Option.mem_map_of_mem _ hbb)
          rwa [hy] at this
        · rw [← hpp]
          refine ih (by omega) (by omega) (fun hn => absurd hn (by omega)) ?_
          by_cases hs : Suits type except (q.msg x)
          · cases best with
            | none => exact absurd ⟨hsuits.mp hs, fun b hb => absurd hb (by simp)⟩ hbetter
            | some b =>
              obtain ⟨k, hk, -⟩ := id hb
              obtain ⟨y, -, hy, -, rfl, -⟩ := h.link_pp hk
              refine hb.keep hm hk (by omega) (not_lt.mp fun hlt' => hbetter ⟨hsuits.mp hs, ?_⟩)
              intro c hc
              obtain rfl : q.pp b = c := by simpa using hc
              rwa [hy]
          · exact hb.skip hm hs

theorem pick_spec (except : Bool) (h : Holds q l) (hmin : -2 ^ 63 < type) :
    (pick q type except = none ∧ ∀ m ∈ l,
    ¬Suits type except m) ∨ ∃ i m, pick q type except = some (q.pp i) ∧
    Chosen l type except i m := by
  have hnone : Best l type except 0 none := fun j k hj => absurd hj (Nat.not_lt_zero _)
  obtain ⟨r, hr, hbest⟩ := pickFrom_spec h hmin (q.qnum + 1) (by rw [h.qnum]; omega) (Nat.zero_le _)
    (fun _ => rfl) hnone
  have hpick : pick q type except = r.map q.pp := hr
  cases r with
  | none =>
    refine .inl ⟨hpick, fun m hm => ?_⟩
    obtain ⟨j, hj⟩ := mem_iff_getElem?.mp hm
    exact hbest j m (List.getElem?_eq_some_iff.mp hj).1 hj
  | some i =>
    obtain ⟨m, hi, -, hs, hall⟩ := hbest
    exact .inr ⟨i, m, hpick, hi, hs, fun j k hk => hall j k (List.getElem?_eq_some_iff.mp hk).1 hk⟩

end

theorem getLastD_erase {pre post : List Nat} {x : Nat} (h : (pre ++ x :: post).getLastD 0 ≠ x) :
    (pre ++ post).getLastD 0 = (pre ++ x :: post).getLastD 0 := by
  cases post with
  | nil => simp at h
  | cons y post => simp [getLastD_eq_getLast?, List.getLast?_append, List.getLast?_cons_cons]

/-- Unlinking a node takes its message out of the list. -/
theorem Holds.unlink {i : Nat} {m : Kmsg} (h : Holds q l) (hi : l[i]? = some m) :
    Holds (q.unlink (q.pp i)) (l.eraseIdx i) := by
  obtain ⟨x, hx, hlink, hx0, hm, -⟩ := h.link_pp hi
  obtain ⟨hlt, rfl⟩ := List.getElem?_eq_some_iff.mp hx
  -- the nodes before and after the one that goes
  obtain ⟨pre, post, hsplit, hpre⟩ : ∃ pre post, q.nodes = pre ++ q.nodes[i] :: post ∧
    pre.length = i :=
    ⟨q.nodes.take i, q.nodes.drop (i + 1), by rw [← drop_eq_getElem_cons hlt, take_append_drop],
      by rw [length_take]; omega⟩
  generalize q.nodes[i] = x at *
  have herase : q.nodes.eraseIdx i = pre ++ post := by
    rw [hsplit, eraseIdx_append_of_length_le (by omega), hpre, Nat.sub_self, eraseIdx_cons_zero]
  have hpp : q.pp i = (0 :: pre).getLast (cons_ne_nil _ _) := by
    rw [Msq.pp, hsplit, ← cons_append, getD_append _ _ _ _ (by rw [length_cons]; omega),
      getLast_eq_getElem, getD_eq_getElem _ _ (by rw [length_cons]; omega)]
    congr 1
    rw [length_cons]
    omega
  have hnodup : (0 :: (pre ++ x :: post)).Nodup := by
    rw [← hsplit]
    exact nodup_cons.mpr ⟨h.zero_notMem, h.nodup⟩
  have hchain : Chain (q.unlink (q.pp i)).link ((q.unlink (q.pp i)).link 0) (pre ++ post) := by
    have hc := Chain.unlink (hsplit ▸ h.chain) hnodup
    rw [← hpp] at hc
    simp only [Msq.unlink, hlink]
    exact hc
  have hlen : (pre ++ post).length + 1 = q.qnum := by
    rw [h.qnum, ← h.length, hsplit]
    simp only [length_append, length_cons]
    omega
  have hl : l.eraseIdx i = (pre ++ post).map q.msg := by
    rw [← h.msgs, ← herase, eraseIdx_map]
  have hsum : (l.map Kmsg.len).sum = ((l.eraseIdx i).map Kmsg.len).sum + (q.msg x).len := by
    rw [hl, ← h.msgs, hsplit]
    simp only [map_append, map_cons, sum_append, sum_cons]
    omega
  refine (Holds.of_nodes _ hchain ?_ ?_ ?_ ?_ ?_).1
  · exact (herase ▸ (eraseIdx_sublist _ _).nodup h.nodup)
  · exact hl.symm
  · have hlast : chainLast _ q.qnum _ = _ := hchain.last (by omega)
    simp only [Msq.unlink, hlink] at hlast ⊢
    split_ifs with ht
    · exact hlast
    · rw [h.tail, hsplit] at ht ⊢
      exact (getLastD_erase ht).symm
  · simp only [Msq.unlink, hlink, h.cbytes, hsum, Nat.add_sub_cancel]
  · rw [hl, length_map, Msq.unlink]
    dsimp only
    omega

theorem unreceived_receiveAt (log : SentLog) (i : Nat) :
    unreceived (receiveAt i log) = (unreceived log).eraseIdx i := by
  induction log generalizing i with
  | nil => cases i <;> rfl
  | cons e log ih =>
    obtain ⟨m, b⟩ := e
    cases b with
    | true =>
      cases i <;> exact ih _
    | false =>
      cases i with
      | zero => rfl
      | succ i => exact congrArg (m :: ·) (ih i)

theorem unreceived_append (log : SentLog) (m : Kmsg) :
    unreceived (log ++ [(m, false)]) = unreceived log ++ [m] := by
  simp [unreceived]

theorem RecvRight.refuse {a : RecvArgs} {e : Int} (h1 : e ≠ -enomsg) (h2 : e ≠ -eintr)
    (h3 : e ≠ -e2big) :
    RecvRight l a q (.ret e, q) :=
  ⟨rfl, fun h => absurd h (not_or.mpr ⟨h1, h2⟩), fun h => absurd h h3⟩

/-- A receive takes the message that the arguments ask for. -/
theorem sysMsgrcv_right (h : Holds q l) {env : MsgEnv} {a : RecvArgs} (ha : RecvOk env a) :
    RecvRight l a q (sysMsgrcv q env a) ∧ (∀ node type data,
      (sysMsgrcv q env a).1 = .got node type data →
      ∃ i m, l[i]? = some m ∧ q.nodes.idxOf node = i ∧
      (sysMsgrcv q env a).2 = q.unlink (q.pp i)) := by
  obtain ⟨hmin, -, hcopy⟩ := ha
  unfold sysMsgrcv
  by_cases h1 : a.size ≥ 2 ^ 63
  · rw [if_pos h1]
    exact ⟨.refuse (by decide) (by decide) (by decide), nofun⟩
  by_cases h2 : env.found = false
  · rw [if_neg h1, h2]
    exact ⟨.refuse (by decide) (by decide) (by decide), nofun⟩
  by_cases h3 : env.permitted = false
  · rw [if_neg h1, Bool.eq_true_of_not_eq_false h2, h3]
    exact ⟨.refuse (by decide) (by decide) (by decide), nofun⟩
  rw [if_neg h1, Bool.eq_true_of_not_eq_false h2, Bool.eq_true_of_not_eq_false h3, hcopy]
  simp only [Bool.not_true, Bool.false_eq_true, if_false]
  rcases pick_spec a.except h hmin with ⟨hp, hnone⟩ | ⟨i, m, hp, hc⟩
  · rw [hp]
    split_ifs
    · exact ⟨⟨rfl, fun _ => hnone, fun he => absurd he (by decide)⟩, nofun⟩
    · exact ⟨⟨rfl, fun _ => hnone, fun he => absurd he (by decide)⟩, nofun⟩
    · exact ⟨⟨rfl, hnone⟩, nofun⟩
  · obtain ⟨x, hx, hlink, hx0, hm, -⟩ := h.link_pp hc.here
    rw [hp]
    dsimp only
    rw [hlink, hm]
    split_ifs with hbig
    · exact ⟨⟨rfl, fun he => absurd he (by decide), fun _ => ⟨i, m, hc, hbig.1⟩⟩, nofun⟩
    · refine ⟨⟨i, m, hc, rfl, rfl, h.unlink hc.here⟩, ?_⟩
      rintro node type data ⟨rfl, rfl, rfl⟩
      refine ⟨i, m, hc.here, ?_, rfl⟩
      obtain ⟨hlt, rfl⟩ := List.getElem?_eq_some_iff.mp hx
      exact h.nodup.idxOf_getElem i hlt

end

theorem sysMsgsnd_cases (q : Msq) (env : MsgEnv) (node : Option Nat) (m : Kmsg) (nowait : Bool) :
    (∃ n, node = some n ∧ sysMsgsnd q env node m nowait = (.ret 0, q.append n m)) ∨
    ((sysMsgsnd q env node m nowait).1 ≠ .ret 0 ∧ (sysMsgsnd q env node m nowait).2 = q) := by
  unfold sysMsgsnd
  cases node with
  | none =>
    dsimp only
    split_ifs <;> exact .inr ⟨show MsgResult.ret _ ≠ _ by decide, rfl⟩
  | some n =>
    split_ifs
    all_goals first
      | exact .inl ⟨n, rfl, rfl⟩
      | exact .inr ⟨show MsgResult.ret _ ≠ _ by decide, rfl⟩
      | exact .inr ⟨show MsgResult.block ≠ _ by decide, rfl⟩

/-- The queue holds what was sent and not received. -/
theorem msgNext_holds {s t : MsgState} {a : MsgAction} (h : Holds s.q (unreceived s.log))
    (ha : MsgOk s a) (hn : msgNext s a = some t) : Holds t.q (unreceived t.log) := by
  cases a with
  | send env node m nowait =>
    by_cases hnode : ∀ n ∈ node, n ≠ 0 ∧ n ∉ s.q.nodes
    swap
    · rw [msgNext, if_neg hnode] at hn
      cases hn
    rw [msgNext, if_pos hnode] at hn
    cases hn
    rcases sysMsgsnd_cases s.q env node m nowait with ⟨n, rfl, hr⟩ | ⟨hr, hq⟩
    · obtain ⟨h0, hm⟩ := hnode n rfl
      simp only [hr, if_true, unreceived_append]
      exact h.append h0 hm
    · simp only [if_neg hr, hq]
      exact h
  | recv env a =>
    cases hn
    obtain ⟨hr, hidx⟩ := sysMsgrcv_right h ha
    unfold RecvRight at hr
    cases hres : (sysMsgrcv s.q env a).1 with
    | ret e | block =>
      rw [hres] at hr
      simp only [hr.1]
      exact h
    | got node type data =>
      obtain ⟨i, m, hi, hio, hq⟩ := hidx node type data hres
      simp only [hq, hio, unreceived_receiveAt]
      exact h.unlink hi
  | set qbytes =>
    cases hn
    exact (Holds.of_nodes (q := { s.q with qbytes := qbytes }) _ h.chain h.nodup h.msgs h.tail
      h.cbytes h.qnum).1

def allGood : MsgEnv := ⟨true, true, false, true⟩

def sendOne : List MsgAction := [.send allGood (some 1) ⟨5, [7]⟩ false]

def sendTwo : List MsgAction := sendOne ++ [.send allGood (some 2) ⟨2, []⟩ false]

end Cervus.Ipc
