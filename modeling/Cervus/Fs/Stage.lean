import Mathlib.Tactic.Positivity
import Cervus.Lib.Run
import Cervus.Fs.Replay

/-! The blocks staged for a transaction and the descriptor block that has to hold
a tag for each of them: one flush is due before the staged blocks are too many,
but the superblock and the group descriptors come on top of them. -/

namespace Cervus.Fs

open List Disk Prod
open Net (Byte rd32be be32)

structure Session where
  fs : Ext2
  txn : Txn
  disk : Image

/-- The calls of the driver while a transaction is open; it changes the group
descriptors in between. -/
inductive Call where
  | stage (block : Nat) (data : List Byte)
  | stagePatch (block off : Nat) (data : List Byte)
  | describe (gdt : List Byte)

namespace Session
variable (E : Env)

def flush (s : Session) : Option Session :=
  (txnFlush E s.disk s.fs s.txn).map fun r => ⟨r.1, [], run s.disk r.2.flatten⟩

def room (s : Session) (block : Nat) : Option Session :=
  if txnMaxData s.fs.blockSize ≤ s.txn.length ∧
    (txnFind s.txn block).isNone then s.flush E else some s

def put (s : Session) (block : Nat) (f : List Byte → List Byte) : Option Session :=
  (s.room E block).map fun s => { s with txn := txnUpdate s.txn s.fs.blockSize s.disk block f }

def next (s : Session) : Call → Option Session
  | .stage block data => s.put E block fun _ => data
  | .stagePatch block off data => s.put E block fun p => patch p off data
  | .describe gdt => some { s with fs := { s.fs with gdt } }

/-- The calls with arguments that make sense. -/
def callOk (s : Session) : Call → Prop
  | .stage block data => block < 2 ^ 32 ∧ data.length = s.fs.blockSize
  | .stagePatch block off data => block < 2 ^ 32 ∧ off + data.length ≤ s.fs.blockSize
  | .describe gdt => gdt.length = s.fs.gdt.length

end Session

def session (E : Env) (fs : Ext2) (d : Image) : System Session Call := ⟨⟨fs, [], d⟩, Session.next E⟩

def SameShape (fs fs' : Ext2) : Prop :=
  fs'.blockSize = fs.blockSize ∧ fs'.groupsCount = fs.groupsCount ∧ fs'.descSize = fs.descSize

section
variable {E : Env} {d : Image} {fs fs' : Ext2} {t : Txn}

theorem SameShape.trans {fs'' : Ext2} (h : SameShape fs fs') (h' : SameShape fs' fs'') :
    SameShape fs fs'' := ⟨h'.1.trans h.1, h'.2.1.trans h.2.1, h'.2.2.trans h.2.2⟩

theorem foldl_stageGdtBlock (d : Image) (l : List Nat) (s : Ext2 × Txn) :
    SameShape s.1 (l.foldl (stageGdtBlock d) s).1 ∧
      (l.foldl (stageGdtBlock d) s).2.length ≤ s.2.length + l.length := by
  induction l generalizing s with
  | nil => exact ⟨⟨rfl, rfl, rfl⟩, le_refl _⟩
  | cons i l ih =>
    have hi : SameShape s.1 (stageGdtBlock d s i).1 ∧
        (stageGdtBlock d s i).2.length ≤ s.2.length + 1 := by
      simp only [stageGdtBlock]
      split_ifs with h
      · exact ⟨⟨rfl, rfl, rfl⟩, Nat.le_succ _⟩
      · refine ⟨⟨rfl, rfl, rfl⟩, ?_⟩
        simp only [length_txnUpdate]
        split_ifs <;> omega
    obtain ⟨hs, hl⟩ := ih (stageGdtBlock d s i)
    refine ⟨hi.1.trans hs, ?_⟩
    simp only [foldl_cons, length_cons]
    omega

theorem txnStageMeta_spec (E : Env) (d : Image) (fs : Ext2) (t : Txn) :
    SameShape fs (txnStageMeta E d fs t).1 ∧ (txnStageMeta E d fs t).2.length ≤
      t.length + 1 + gdtBlocks fs.blockSize fs.groupsCount fs.descSize := by
  obtain ⟨h1, h2, h3, -⟩ := ext2CsumFinalize_frame E fs
  simp only [txnStageMeta, Ext2.gdtBlocks, h1, h2, h3]
  generalize ht : txnUpdate t _ d _ _ = t₁
  have hl : t₁.length ≤ t.length + 1 := by
    rw [← ht, length_txnUpdate]
    split_ifs <;> omega
  obtain ⟨hs, hf⟩ := foldl_stageGdtBlock d
    (range (gdtBlocks fs.blockSize fs.groupsCount fs.descSize)) (ext2CsumFinalize E fs, t₁)
  dsimp only at hf
  rw [length_range] at hf
  exact ⟨⟨hs.1.trans h1, hs.2.1.trans h2, hs.2.2.trans h3⟩, by omega⟩

theorem length_uuid_of_readLog {bs : Nat} {jsb : List Byte} (hb : 64 ≤ bs)
    (h : readLog E.bmap bs d 0 = some jsb) :
    ((jsb.drop jUuid).take 16).length = 16 := by
  obtain ⟨-, h⟩ := Option.ite_none_left_eq_some.mp h
  rw [← Option.some.inj h, length_take, length_drop, Disk.length_read]
  exact min_eq_left (by unfold jUuid; omega)

theorem txnCommit_cases (hb : 64 ≤ fs.blockSize) :
    (∃ r, txnCommit E d fs t = some r ∧ SameShape fs r.1) ∨
    txnCommit E d fs t = none ∧ fs.blockSize < 28 + 8 * t.length := by
  unfold txnCommit
  split_ifs with ht
  · exact .inl ⟨_, rfl, rfl, rfl, rfl⟩
  dsimp only
  cases hr : readLog E.bmap fs.blockSize d 0 with
  | none => exact .inl ⟨_, rfl, rfl, rfl, rfl⟩
  | some jsb =>
    dsimp only
    split_ifs with hroom
    · exact .inl ⟨_, rfl, rfl, rfl, rfl⟩
    have hu := length_uuid_of_readLog hb hr
    cases hd : descriptor fs.blockSize (rd32be jsb jSequence) ((jsb.drop jUuid).take 16) t with
    | none =>
      refine .inr ⟨rfl, Nat.lt_of_not_le fun hfit => ?_⟩
      simpa [hd] using (@descriptor_isSome _ (rd32be jsb jSequence) _ _ hu ht).mpr hfit
    | some desc => exact .inl ⟨_, rfl, rfl, rfl, rfl⟩

theorem txnFlush_cases (hb : 64 ≤ fs.blockSize) :
    (∃ r, txnFlush E d fs t = some r ∧ SameShape fs r.1) ∨ txnFlush E d fs t = none ∧ fs.blockSize <
      28 + 8 * (t.length + 1 + gdtBlocks fs.blockSize fs.groupsCount fs.descSize) := by
  obtain ⟨hs, hl⟩ := txnStageMeta_spec E d fs t
  rcases txnCommit_cases (E := E) (d := d) (t := (txnStageMeta E d fs t).2) (hs.1 ▸ hb)
    with ⟨r, h, hr⟩ | ⟨h, hr⟩
  · exact .inl ⟨r, h, hs.trans hr⟩
  · rw [hs.1] at hr
    exact .inr ⟨h, by omega⟩

theorem txnMaxData_pos {bs : Nat} (h : 1024 ≤ bs) : 0 < txnMaxData bs := by
  unfold txnMaxData headerSize
  omega

theorem Session.put_spec {s s' : Session} {block : Nat} {f : List Byte → List Byte}
    (hb : 1024 ≤ s.fs.blockSize) (hl : s.txn.length ≤ txnMaxData s.fs.blockSize)
    (h : s.put E block f = some s') :
    SameShape s.fs s'.fs ∧ s'.txn.length ≤ txnMaxData s.fs.blockSize := by
  obtain ⟨u, hu, rfl⟩ := Option.map_eq_some_iff.mp h
  rw [length_txnUpdate]
  unfold room at hu
  split_ifs at hu with hfull
  · obtain ⟨r, hr, rfl⟩ := Option.map_eq_some_iff.mp hu
    rcases txnFlush_cases (E := E) (d := s.disk) (t := s.txn) (by omega : 64 ≤ s.fs.blockSize) with
      ⟨r', hr', hs⟩ | ⟨hn, -⟩
    · obtain rfl : r' = r := Option.some.inj (hr'.symm.trans hr)
      have := txnMaxData_pos hb
      exact ⟨hs, by simpa using Nat.succ_le_of_lt this⟩
    · cases hn.symm.trans hr
  · cases hu
    refine ⟨⟨rfl, rfl, rfl⟩, ?_⟩
    rw [Option.isNone_iff_eq_none, ← Option.not_isSome_iff_eq_none, txnFind_isSome] at hfull
    split_ifs with hm
    · exact hl
    · exact Nat.lt_of_not_le fun hmax => hfull ⟨hmax, hm⟩

theorem session_inv (hb : 1024 ≤ fs.blockSize) {s : Session}
    (h : (session E fs d).Reach Session.callOk s) :
    SameShape fs s.fs ∧ s.txn.length ≤ txnMaxData fs.blockSize := by
  refine h.invariant (I := fun s => SameShape fs s.fs ∧ s.txn.length ≤ txnMaxData fs.blockSize)
    ⟨⟨rfl, rfl, rfl⟩, Nat.zero_le _⟩ fun s a s' _ hi _ hn => ?_
  have hput : ∀ block f, s.put E block f = some s' →
      SameShape fs s'.fs ∧ s'.txn.length ≤ txnMaxData fs.blockSize := by
    intro block f hp
    obtain ⟨h1, h2⟩ := hi
    rw [← h1.1] at hb h2 ⊢
    obtain ⟨g1, g2⟩ := Session.put_spec hb h2 hp
    exact ⟨h1.trans g1, g2⟩
  cases a with
  | stage block data | stagePatch block off data => exact hput _ _ hn
  | describe gdt =>
    cases hn
    exact hi

end

/-! A journal with room for everything, and a transaction as full as it gets. -/

section full
variable (bs groups desc : Nat)

def roomyJsb : List Byte :=
  patch (patch (replicate bs 0) jMaxlen (be32 (2 ^ 32 - 1))) jFirst (be32 1)

def roomyEnv : Env := ⟨fun _ _ => 0, fun j => 2 ^ 30 + j⟩

def roomyImage : Image := write (fun _ => 0) (2 ^ 30 * bs) (roomyJsb bs)

def plainFs : Ext2 :=
  { sb := replicate 1024 0, gdt := replicate (gdtBlocks bs groups desc * bs) 0
    gdtShadow := none, blockSize := bs, groupsCount := groups, descSize := desc, dirty := true
    hasCsum := false, csumSeed := 0, journalWritable := true }

def fullSession (k : Nat) : Session :=
  ⟨plainFs bs groups desc, (range k).map fun i => (2 ^ 24 + i, replicate bs 0), roomyImage bs⟩

variable {bs groups desc}

theorem reach_full (groups desc : Nat) {k : Nat} (hk : k ≤ txnMaxData bs)
    (hb : txnMaxData bs ≤ 2 ^ 24) :
    (session roomyEnv (plainFs bs groups desc) (roomyImage bs)).Reach Session.callOk
      (fullSession bs groups desc k) := by
  induction k with
  | zero => exact .start
  | succ k ih =>
    refine (ih (by omega)).step (a := .stage (2 ^ 24 + k) (replicate bs 0))
      ⟨by omega, length_replicate⟩ ?_
    have hnone : ¬(txnFind (fullSession bs groups desc k).txn (2 ^ 24 + k)).isSome := by
      rw [txnFind_isSome]
      simp [fullSession]
    have hlen : (fullSession bs groups desc k).txn.length = k := by simp [fullSession]
    have hroom : (fullSession bs groups desc k).room roomyEnv (2 ^ 24 + k) =
        some (fullSession bs groups desc k) := by
      refine if_neg fun h => ?_
      have hmax : txnMaxData bs ≤ (fullSession bs groups desc k).txn.length := h.1
      omega
    simp only [session, Session.next, Session.put, hroom, Option.map_some, txnUpdate, if_neg hnone]
    simp [fullSession, range_succ]

theorem foldl_stageGdtBlock_fresh {d : Image} {s : Ext2 × Txn} (hs : s.1.gdtShadow = none) {n : Nat}
    (hf : ∀ i < n, gdtBlock s.1 + i ∉ s.2.map fst) : ((range n).foldl (stageGdtBlock d) s).1 = s.1 ∧
      ((range n).foldl (stageGdtBlock d) s).2.map fst =
        s.2.map fst ++ (range n).map (gdtBlock s.1 + ·) := by
  induction n with
  | zero => simp
  | succ n ih =>
    obtain ⟨h1, h2⟩ := ih fun i hi => hf i (by omega)
    rw [range_succ, foldl_append, foldl_cons, foldl_nil]
    generalize (range n).foldl (stageGdtBlock d) s = r at h1 h2 ⊢
    simp only [stageGdtBlock, h1, hs, Option.any_none, Bool.false_eq_true, if_false,
      Option.map_none]
    refine ⟨by cases hr : s.1; simp_all, ?_⟩
    rw [txnUpdate_fst, h2, if_neg]
    · simp
    · rw [mem_append]
      rintro (hm | hm)
      · exact hf n (by omega) hm
      · simp at hm

theorem gdtBlocks_le (groups desc : Nat) (hb : 1024 ≤ bs) : gdtBlocks bs groups desc ≤ 2 ^ 22 := by
  have h : (groups * desc % 2 ^ 32 + bs - 1) % 2 ^ 32 < 2 ^ 32 := Nat.mod_lt _ (by norm_num)
  exact (Nat.div_le_div_left hb (by norm_num)).trans (Nat.div_le_of_le_mul (by omega))

theorem length_roomyJsb (hb : 1024 ≤ bs) : (roomyJsb bs).length = bs := by
  have h : (patch (replicate bs 0) jMaxlen (be32 (2 ^ 32 - 1))).length = bs := by
    rw [length_patch, length_replicate]
    rw [length_replicate, length_be32, jMaxlen]
    omega
  rw [roomyJsb, length_patch, h]
  rw [h, length_be32, jFirst]
  omega

theorem roomyJsb_room (hb : 1024 ≤ bs) :
    rd32be (roomyJsb bs) jMaxlen = 2 ^ 32 - 1 ∧ rd32be (roomyJsb bs) jFirst = 1 := by
  have hl : jMaxlen + 4 ≤ (replicate bs (0 : Byte)).length := by
    rw [length_replicate, jMaxlen]
    omega
  have hl' : jFirst + 4 ≤ (patch (replicate bs 0) jMaxlen (be32 (2 ^ 32 - 1))).length := by
    rw [length_patch (by simpa using hl), length_replicate, jFirst]
    omega
  refine ⟨?_, rd32be_patch_same hl'⟩
  rw [roomyJsb, rd32be_patch_of_notMem (by simpa using hl') (.inl (by decide)),
    rd32be_patch_same hl]
  exact Nat.mod_eq_of_lt (by norm_num)

theorem length_txnStageMeta_full (groups desc : Nat) (hb : 1024 ≤ bs) :
    (txnStageMeta roomyEnv (roomyImage bs) (plainFs bs groups desc)
    (fullSession bs groups desc (txnMaxData bs)).txn).2.length =
      txnMaxData bs + 1 + gdtBlocks bs groups desc := by
  have hsb : sbBlock bs ≤ 1 := by unfold sbBlock; split_ifs <;> omega
  have hgb : gdtBlock (plainFs bs groups desc) ≤ 2 ∧
      sbBlock bs < gdtBlock (plainFs bs groups desc) := by
    unfold gdtBlock sbBlock plainFs
    split_ifs <;> omega
  have hn := gdtBlocks_le groups desc hb
  have hkeys : (fullSession bs groups desc (txnMaxData bs)).txn.map fst =
      (range (txnMaxData bs)).map (2 ^ 24 + ·) := by
    simp [fullSession, Function.comp_def]
  have hfs : ext2CsumFinalize roomyEnv (plainFs bs groups desc) = plainFs bs groups desc := rfl
  simp only [txnStageMeta, Ext2.gdtBlocks, hfs,
    show (plainFs bs groups desc).blockSize = bs from rfl,
    show (plainFs bs groups desc).groupsCount = groups from rfl,
    show (plainFs bs groups desc).descSize = desc from rfl]
  generalize ht : txnUpdate (fullSession bs groups desc (txnMaxData bs)).txn _ _ _ _ = t₁
  have ht₁ : t₁.map fst = (range (txnMaxData bs)).map (2 ^ 24 + ·) ++ [sbBlock bs] := by
    rw [← ht, txnUpdate_fst, hkeys, if_neg]
    simp only [mem_map, not_exists, not_and]
    omega
  have hf := (foldl_stageGdtBlock_fresh (d := roomyImage bs) (s := (plainFs bs groups desc, t₁)) rfl
    (n := gdtBlocks bs groups desc) fun i hi => by
      simp only [ht₁, mem_append, mem_map, mem_singleton, not_or, not_exists, not_and]
      exact ⟨by omega, by omega⟩).2
  have hlen := congrArg length hf
  rw [length_map, length_append, ht₁] at hlen
  simpa using hlen

/-- The largest session overflows the descriptor of a volume with too large a table. -/
theorem full_overflows (hb : 1024 ≤ bs)
    (h : (bs - 28) / 8 < txnMaxData bs + 1 + gdtBlocks bs groups desc) :
    txnFlush roomyEnv (roomyImage bs) (plainFs bs groups desc)
      (fullSession bs groups desc (txnMaxData bs)).txn = none := by
  have hl := length_txnStageMeta_full groups desc hb
  have hs := (txnStageMeta_spec roomyEnv (roomyImage bs) (plainFs bs groups desc)
    (fullSession bs groups desc (txnMaxData bs)).txn).1.1
  have hn := gdtBlocks_le groups desc hb
  have hmax : txnMaxData bs ≤ 492 := by unfold txnMaxData; omega
  have hlog : readLog roomyEnv.bmap bs (roomyImage bs) 0 = some (roomyJsb bs) := by
    have hr : read (roomyImage bs) (2 ^ 30 * bs) (roomyJsb bs).length = roomyJsb bs :=
      Disk.read_write
    rw [length_roomyJsb hb] at hr
    rw [readLog, if_neg (by simp [roomyEnv])]
    simpa [roomyEnv] using hr
  unfold txnFlush txnCommit
  generalize txnStageMeta roomyEnv _ _ _ = r at hl hs ⊢
  have hne : r.2 ≠ [] := by
    intro h0
    rw [h0] at hl
    simp at hl
    omega
  rw [if_neg hne, hs]
  dsimp only [plainFs]
  rw [hlog]
  dsimp only
  rw [(roomyJsb_room hb).1, (roomyJsb_room hb).2, if_neg (by omega)]
  have hd := @descriptor_isSome bs (rd32be (roomyJsb bs) jSequence) _ _
    (length_uuid_of_readLog (by omega : 64 ≤ bs) hlog) hne
  have hnone : descriptor bs (rd32be (roomyJsb bs) jSequence)
      ((drop jUuid (roomyJsb bs)).take 16) r.2 = none := by
    rw [← Option.not_isSome_iff_eq_none, hd]
    omega
  rw [hnone]
  rfl

/-- The descriptor block holds the tags of every transaction exactly when its spare
tags take the superblock and all blocks of descriptors. -/
theorem descriptor_fits_iff (bs groups desc : Nat) (hb : ∃ k, bs = 1024 * 2 ^ k) :
    (∀ E fs d, fs.blockSize = bs → fs.groupsCount = groups → fs.descSize = desc →
      ∀ s, (session E fs d).Reach Session.callOk s → (s.flush E).isSome) ↔
    txnMaxData bs + 1 + gdtBlocks bs groups desc ≤ (bs - 28) / 8 := by
  have hbs : 1024 ≤ bs := by
    obtain ⟨k, rfl⟩ := hb
    exact Nat.le_mul_of_pos_right _ (by positivity)
  constructor
  · intro h
    by_contra hlt
    have hr := reach_full groups desc (le_refl (txnMaxData bs))
      (by unfold txnMaxData; omega)
    have hs := h roomyEnv (plainFs bs groups desc) (roomyImage bs) rfl rfl rfl _ hr
    have hn : (fullSession bs groups desc (txnMaxData bs)).flush roomyEnv = none :=
      Option.map_eq_none_iff.mpr (full_overflows hbs (Nat.lt_of_not_le hlt))
    rw [hn] at hs
    cases hs
  · rintro hfit E fs d rfl rfl rfl s hr
    obtain ⟨⟨h1, h2, h3⟩, hl⟩ := session_inv hbs hr
    rcases txnFlush_cases (E := E) (d := s.disk) (t := s.txn) (by omega : 64 ≤ s.fs.blockSize) with
      ⟨r, hf, -⟩ | ⟨-, hover⟩
    · rw [Session.flush, hf]
      rfl
    · rw [h1, h2, h3] at hover
      omega

theorem descriptor_fits_iff_small : gdtBlocks 1024 224 32 = 7 ∧
    ∀ E fs d, fs.blockSize = 1024 → fs.groupsCount = 224 → fs.descSize = 32 →
      ∀ s, (session E fs d).Reach Session.callOk s → (s.flush E).isSome :=
  ⟨rfl, (descriptor_fits_iff 1024 224 32 ⟨0, rfl⟩).mpr (by decide)⟩

/-- The volume of 256 groups again, by way of its sessions. -/
theorem descriptor_overflows_256 :
    ∃ E fs d, fs.blockSize = 1024 ∧ fs.groupsCount = 256 ∧ fs.descSize = 32 ∧
    ∃ s, (session E fs d).Reach Session.callOk s ∧
    (txnStageMeta E s.disk s.fs s.txn).2.length = 125 ∧
      s.flush E = none :=
  ⟨roomyEnv, plainFs 1024 256 32, roomyImage 1024, rfl, rfl, rfl,
    fullSession 1024 256 32 (txnMaxData 1024),
    reach_full _ _ (le_refl _) (by decide), length_txnStageMeta_full _ _ (le_refl _),
    Option.map_eq_none_iff.mpr (full_overflows (le_refl _) (by decide))⟩

end full

end Cervus.Fs
