import Cervus.Fs.Layout

/-! The journal of an ext3/ext4 volume: the three passes of recovery over the
log, and the transaction writer, as lists of device writes with a flush after
each list. -/

namespace Cervus.Fs

open Net (Byte rd16be rd32be be16 be32)

def jbd2Magic : Nat := 0xc03b3998
def descriptorBlock : Nat := 1
def commitBlock : Nat := 2
def revokeBlock : Nat := 5

def flagEscape : Nat := 1
def flagSameUuid : Nat := 2
def flagLastTag : Nat := 8

def featRevoke : Nat := 0x1
def feat64Bit : Nat := 0x2
def featCsumV3 : Nat := 0x10

def headerSize : Nat := 12

/-- The fields of `journal_superblock_t`, by their offset. -/
def jMaxlen : Nat := 16
def jFirst : Nat := 20
def jSequence : Nat := 24
def jStart : Nat := 28
def jFeatureIncompat : Nat := 40
def jUuid : Nat := 48

inductive Pass where
  | scan
  | revoke
  | replay
  deriving DecidableEq, Repr

def tidGeq (a b : Nat) : Bool := (a + 2 ^ 32 - b) % 2 ^ 32 < 2 ^ 31

abbrev RevokeTbl := List (Nat × Nat)

def revSet : RevokeTbl → Nat → Nat → RevokeTbl
  | [], block, seq => [(block, seq)]
  | e :: t, block, seq =>
    if e.1 = block then (if tidGeq seq e.2 then (block, seq) else e) :: t
    else e :: revSet t block seq

def revTest (t : RevokeTbl) (block seq : Nat) : Bool :=
  match t.find? (fun e => e.1 = block) with
  | some e => tidGeq e.2 seq
  | none => false

def wrapb (b first maxlen : Nat) : Nat :=
  if maxlen ≤ b then (b + first + 2 ^ 32 - maxlen) % 2 ^ 32 else b

structure Jctx where
  blockSize : Nat
  bmap : Nat → Nat
  first : Nat
  maxlen : Nat
  tagBytes : Nat
  csum3 : Bool
  is64 : Bool

def readLog (bmap : Nat → Nat) (bs : Nat) (d : Image) (jblk : Nat) : Option (List Byte) :=
  if bmap jblk = 0 then none else some (Disk.read d (bmap jblk * bs) bs)

def writeLog (bmap : Nat → Nat) (bs jblk : Nat) (buf : List Byte) : List (Nat × List Byte) :=
  if bmap jblk = 0 then [] else [(bmap jblk * bs, buf)]

def Jctx.advance (c : Jctx) (nextLog : Nat) : Nat := wrapb ((nextLog + 1) % 2 ^ 32) c.first c.maxlen

def tagFlags (blk : List Byte) (tagp : Nat) (csum3 : Bool) : Nat :=
  if csum3 then rd32be blk (tagp + 4) else rd16be blk (tagp + 6)

def tagBlock (blk : List Byte) (tagp : Nat) (is64 : Bool) : Nat :=
  (if is64 then rd32be blk (tagp + 8) * 2 ^ 32 else 0) + rd32be blk tagp

def scanRevokeLoop (blk : List Byte) (count seq rsz : Nat) : Nat → Nat → RevokeTbl → RevokeTbl
  | 0, _, rev => rev
  | fuel + 1, off, rev =>
    if off + rsz ≤ count then
      let block := if rsz = 8 then rd32be blk off * 2 ^ 32 + rd32be blk (off + 4)
        else rd32be blk off
      scanRevokeLoop blk count seq rsz fuel (off + rsz) (revSet rev block seq)
    else rev

def scanRevoke (blk : List Byte) (bs seq : Nat) (is64 : Bool) (rev : RevokeTbl) : RevokeTbl :=
  scanRevokeLoop blk (min (rd32be blk headerSize) bs) seq (if is64 then 8 else 4) bs
    (headerSize + 4) rev

structure PassState where
  nextLog : Nat
  nextSeq : Nat
  rev : RevokeTbl
  image : Image
  writes : List (Nat × List Byte)

def replayTag (c : Jctx) (tf blocknr : Nat) (s : PassState) : PassState :=
  match readLog c.bmap c.blockSize s.image s.nextLog with
  | none => s
  | some dbuf =>
    if revTest s.rev blocknr s.nextSeq then s
    else
      let off := blocknr * c.blockSize % 2 ^ 64
      let dbuf := if tf &&& flagEscape ≠ 0 then patch dbuf 0 (be32 jbd2Magic) else dbuf
      { s with image := Disk.write s.image off dbuf, writes := s.writes ++ [(off, dbuf)] }

/-- The loop over the tags of a descriptor; every round moves `tagp`, so
`blockSize` rounds are enough. -/
def tagLoop (c : Jctx) (pass : Pass) (blk : List Byte) : Nat → Nat → PassState → PassState
  | 0, _, s => s
  | fuel + 1, tagp, s =>
    if tagp + c.tagBytes ≤ c.blockSize then
      let tf := tagFlags blk tagp c.csum3
      let s := if pass = .replay then replayTag c tf (tagBlock blk tagp c.is64) s else s
      let s := { s with nextLog := c.advance s.nextLog }
      let tagp := tagp + c.tagBytes + (if tf &&& flagSameUuid ≠ 0 then 0 else 16)
      if tf &&& flagLastTag ≠ 0 then s else tagLoop c pass blk fuel tagp s
    else s

def passLoop (c : Jctx) (pass : Pass) (endSeq : Nat) : Nat → PassState → Option PassState
  | 0, _ => none
  | fuel + 1, s =>
    if pass ≠ .scan ∧ tidGeq s.nextSeq endSeq then some s
    else
      match readLog c.bmap c.blockSize s.image s.nextLog with
      | none => some s
      | some blk =>
        if rd32be blk 0 ≠ jbd2Magic then some s
        else if rd32be blk 8 ≠ s.nextSeq then some s
        else
          let btype := rd32be blk 4
          let s := { s with nextLog := c.advance s.nextLog }
          if btype = descriptorBlock then
            passLoop c pass endSeq fuel (tagLoop c pass blk c.blockSize headerSize s)
          else if btype = commitBlock then
            passLoop c pass endSeq fuel { s with nextSeq := (s.nextSeq + 1) % 2 ^ 32 }
          else if btype = revokeBlock then
            passLoop c pass endSeq fuel
              (if pass = .revoke then
                { s with rev := scanRevoke blk c.blockSize s.nextSeq c.is64 s.rev } else s)
          else some s

def jbd2Pass (c : Jctx) (pass : Pass) (fuel start startSeq endSeq : Nat) (rev : RevokeTbl)
    (d : Image) : Option PassState :=
  passLoop c pass endSeq fuel ⟨start, startSeq, rev, d, []⟩

def jctxOf (bmap : Nat → Nat) (bs : Nat) (jsb : List Byte) : Jctx :=
  let feat := rd32be jsb jFeatureIncompat
  let csum3 : Bool := feat &&& featCsumV3 ≠ 0
  let is64 : Bool := feat &&& feat64Bit ≠ 0
  { blockSize := bs, bmap, first := rd32be jsb jFirst, maxlen := rd32be jsb jMaxlen
    tagBytes := if csum3 then 16 else if is64 then 12 else 8, csum3, is64 }

def jbd2Passes (c : Jctx) (fuel start seq : Nat) (d : Image) : Option (Nat × PassState) := do
  let scan ← jbd2Pass c .scan fuel start seq 0 [] d
  let revoke ← jbd2Pass c .revoke fuel start seq scan.nextSeq [] d
  let replay ← jbd2Pass c .replay fuel start seq scan.nextSeq revoke.rev d
  return (scan.nextSeq, replay)

def jbd2Recover (E : Env) (fuel : Nat) (fs : Ext2) (d : Image) :
    Option (Ext2 × List (Nat × List Byte)) :=
  match readLog E.bmap fs.blockSize d 0 with
  | none => some (fs, [])
  | some jsb =>
    if rd32be jsb 0 ≠ jbd2Magic then some (fs, [])
    else
      let seq := rd32be jsb jSequence
      let start := rd32be jsb jStart
      let feat := rd32be jsb jFeatureIncompat
      let fs := { fs with journalWritable := feat = 0 ∨ feat = featRevoke }
      if start = 0 then
        if needsRecover fs.sb then
          let fs := { fs with sb := clearRecover fs.sb }
          some (fs, [(superOffset, fs.sb)])
        else some (fs, [])
      else do
        let (endSeq, replay) ← jbd2Passes (jctxOf E.bmap fs.blockSize jsb) fuel start seq d
        let jsb := patch (patch jsb jStart (be32 0)) jSequence (be32 endSeq)
        let fs := { fs with sb := clearRecover fs.sb }
        return (fs, replay.writes ++ writeLog E.bmap fs.blockSize 0 jsb ++ [(superOffset, fs.sb)])

/-! The transaction writer of the journal: blocks staged in memory, the
superblock and changed group descriptors added to them, and the writes that log
them and then put them in place. -/

open Disk List Prod

abbrev Txn := List (Nat × List Byte)

def txnFind (t : Txn) (block : Nat) : Option (List Byte) :=
  (t.find? (fun e => e.1 = block)).map snd

def txnUpdate (t : Txn) (bs : Nat) (d : Image) (block : Nat) (f : List Byte → List Byte) : Txn :=
  if (txnFind t block).isSome then
    t.map fun e => if e.1 = block then (e.1, f e.2) else e
  else t ++ [(block, f (read d (block * bs) bs))]

section
variable {t : Txn} {bs block : Nat} {d : Image} {f : List Byte → List Byte}

theorem txnFind_isSome : (txnFind t block).isSome ↔ block ∈ t.map fst := by
  simp only [txnFind, Option.isSome_map, List.find?_isSome, decide_eq_true_eq, List.mem_map]

theorem txnUpdate_fst : (txnUpdate t bs d block f).map fst =
    if block ∈ t.map fst then t.map fst else t.map fst ++ [block] := by
  unfold txnUpdate
  simp only [txnFind_isSome]
  split_ifs
  · rw [List.map_map]
    refine List.map_congr_left fun e _ => ?_
    simp only [Function.comp_apply]
    split_ifs <;> rfl
  · simp

theorem length_txnUpdate : (txnUpdate t bs d block f).length =
    if block ∈ t.map fst then t.length else t.length + 1 := by
  rw [← List.length_map fst, txnUpdate_fst]
  split_ifs <;> simp

end

def txnMaxData (bs : Nat) : Nat := min ((bs - headerSize - 16) / 8) 500 - 8

def tableBlock (bs : Nat) (p : List Byte) (i : Nat) : List Byte := (p.drop (i * bs)).take bs

def sbBlock (bs : Nat) : Nat := if bs = 1024 then 1 else 0

def sbOff (bs : Nat) : Nat := if bs = 1024 then 0 else superOffset

def stageGdtBlock (d : Image) (s : Ext2 × Txn) (i : Nat) : Ext2 × Txn :=
  let fs := s.1
  let bs := fs.blockSize
  let cur := tableBlock bs fs.gdt i
  if fs.gdtShadow.any fun shd => tableBlock bs shd i == cur then s
  else
    ({ fs with gdtShadow := fs.gdtShadow.map fun shd => patch shd (i * bs) cur },
      txnUpdate s.2 bs d (gdtBlock fs + i) fun _ => cur)

def txnStageMeta (E : Env) (d : Image) (fs : Ext2) (t : Txn) : Ext2 × Txn :=
  let fs := ext2CsumFinalize E fs
  let bs := fs.blockSize
  let t := txnUpdate t bs d (sbBlock bs) fun b => patch b (sbOff bs) fs.sb
  (range fs.gdtBlocks).foldl (stageGdtBlock d) (fs, t)

def jHeader (btype seq : Nat) : List Byte := be32 jbd2Magic ++ be32 btype ++ be32 seq

def startsMagic (data : List Byte) : Bool := rd32be data 0 = jbd2Magic

def escaped (data : List Byte) : List Byte :=
  if startsMagic data then patch data 0 (replicate 4 0) else data

def flagsOf (n i : Nat) (data : List Byte) : Nat :=
  (if 0 < i then flagSameUuid else 0) + (if i + 1 = n then flagLastTag else 0)
    + (if startsMagic data then flagEscape else 0)

def tagOf (uuid : List Byte) (n i : Nat) (e : Nat × List Byte) : List Byte :=
  be32 e.1 ++ be16 0 ++ be16 (flagsOf n i e.2) ++ (if i = 0 then uuid else [])

def tagsFrom (uuid : List Byte) (n : Nat) : Nat → Txn → List Byte
  | _, [] => []
  | i, e :: t => tagOf uuid n i e ++ tagsFrom uuid n (i + 1) t

def zeroFill (bs : Nat) (p : List Byte) : List Byte := p ++ replicate (bs - p.length) 0

/-- The descriptor block; `none` when the tags run past its buffer. -/
def descriptor (bs seq : Nat) (uuid : List Byte) (t : Txn) : Option (List Byte) :=
  let p := jHeader descriptorBlock seq ++ tagsFrom uuid t.length 0 t
  if p.length ≤ bs then some (zeroFill bs p) else none

def logData : Nat → Txn → List (Nat × List Byte)
  | _, [] => []
  | j, e :: t => (j, escaped e.2) :: logData (j + 1) t

def logBlocks (bs first seq : Nat) (desc : List Byte) (t : Txn) : List (Nat × List Byte) :=
  logData (first + 1) t ++
    [(first, desc), (first + 1 + t.length, zeroFill bs (jHeader commitBlock seq))]

def withStart (jsb : List Byte) (start seq : Nat) : List Byte :=
  patch (patch jsb jStart (be32 start)) jSequence (be32 seq)

/-- `txn_flush` after the staging: the device writes, with a flush of the device
after each list of them. `none` is a write past the descriptor buffer. -/
def txnCommit (E : Env) (d : Image) (fs : Ext2) (t : Txn) :
    Option (Ext2 × List (List (Nat × List Byte))) :=
  let bs := fs.blockSize
  if t = [] then some (fs, [])
  else
    match readLog E.bmap bs d 0 with
    | none => some (fs, [blocks bs t])
    | some jsb =>
      let maxlen := rd32be jsb jMaxlen
      let first := rd32be jsb jFirst
      let seq := rd32be jsb jSequence
      if (maxlen + 2 ^ 32 - first) % 2 ^ 32 < 2 + t.length then some (fs, [blocks bs t])
      else do
        let desc ← descriptor bs seq ((jsb.drop jUuid).take 16) t
        return ({ fs with dirty := false },
          [ (superOffset, setRecover fs.sb) ::
              (logBlocks bs first seq desc t).flatMap fun w => writeLog E.bmap bs w.1 w.2,
            writeLog E.bmap bs 0 (withStart jsb first seq),
            blocks bs t,
            writeLog E.bmap bs 0 (withStart jsb 0 ((seq + 1) % 2 ^ 32)) ])

def txnFlush (E : Env) (d : Image) (fs : Ext2) (t : Txn) :
    Option (Ext2 × List (List (Nat × List Byte))) :=
  let s := txnStageMeta E d fs t
  txnCommit E d s.1 s.2

end Cervus.Fs
