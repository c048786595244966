import HugoFS.Meta.Store

/-!
# The inode service

The calls of the inode service as programs over the typed store. `Link` and `DeleteInode` read a
record before they open their transaction, and `DeleteDirInode` opens none. Clock readings and
the number from the inode sequence are arguments.
-/

namespace HugoFS.Meta

open KV

/-! ### Requests -/

structure Caller where
  uid : UInt32
  gid : UInt32
deriving DecidableEq

def Caller.gids (c : Caller) : List UInt32 := [c.gid]

structure CreateInodeReq where
  parentIno : Ino
  itemName : String
  attr : Option ModifyAttr
deriving DecidableEq

structure LinkReq where
  ino : Ino
  newParentIno : Ino
  newName : String
deriving DecidableEq

structure DeleteInodeReq where
  parentIno : Ino
  name : String

structure DeleteDirInodeReq where
  parentIno : Ino
  name : String
  recursively : Bool
deriving DecidableEq

structure RenameReq where
  parentSrcIno : Ino
  oldName : String
  parentDstIno : Ino
  newName : String
  flags : UInt32

structure RenameResp where
  oldEntry : PbEntry
  newEntry : PbEntry
  deletedIno : Ino
deriving DecidableEq

/-! ### Initial state -/

def rootAttr (now : Time) (uid gid : UInt32) : Attr where
  inode := rootIno
  size := 0
  mtime := now.sec
  mtimens := now.nsec
  atime := now.sec
  atimens := now.nsec
  ctime := now.sec
  ctimens := now.nsec
  uid := uid
  gid := gid
  mode := modeDir ||| 0o755
  nlink := 2
  rdev := 0
  linkTarget := ""
  flags := 0
  epoch := 0
  parentIno := 0
  name := ""

def initStore (now : Time) (uid gid : UInt32) : Store :=
  putAttr ∅ (rootAttr now uid gid)

/-! ### CreateInode -/

def newInode (ino : Ino) (now : Time) (attr pAttr : Attr) : Attr × Attr :=
  let attr := { attr with inode := ino }
  let attr' :=
    if attr.isDir then { attr with nlink := 2, size := 4096 }
    else if attr.isSymlink then
      { attr with nlink := 1, size := attr.linkTarget.utf8ByteSize.toUInt64 }
    else { attr with nlink := 1 }
  let pAttr' := if attr.isDir then pAttr.setNlink (pAttr.nlink + 1) else pAttr
  ({ attr'.touch now with atime := now.sec, atimens := now.nsec },
    (pAttr'.touch now).bumpEpoch)

def createInodeTxn (req : CreateInodeReq) (ino : Ino) (now : Time) : Txn Attr := do
  let p := req.parentIno
  let pAttr ← getAttr p fun _ => .status .notFound s!"parent inode:{p} not exists"
  Body.failIf (!pAttr.isDir) (.errno .ENOTDIR)
  Body.failIf (pAttr.flags &&& flagImmutable != 0) (.errno .EPERM)
  let entry ← findEntry p req.itemName
  Body.failIf (entry.any fun e => e.ino != 0) (.errno .EEXIST)
  match req.attr with
  | none => .throw .panic
  | some m =>
    let new := newInode ino now { toAttr m with parentIno := p, name := req.itemName } pAttr
    saveEntry { parentIno := p, name := req.itemName, ino := new.1.inode, mode := new.1.mode }
      (.wrapped "failed save new entry")
    saveAttr new.2
    saveAttr new.1
    pure new.1

def createInode (req : CreateInodeReq) (ino : Ino) (now : Time) : Request Attr :=
  .txn (createInodeTxn req ino now)

/-! ### Link -/

def linkTxn (req : LinkReq) (now : Time) (pAttr : Attr) : Txn Attr := do
  let i := req.ino
  let target ← getAttr i fun _ => .status .notFound s!"origin inode:{i} not exists"
  Body.failIf target.isDir (.errno .EPERM)
  let linkEntry ← findEntry req.newParentIno req.newName
  Body.failIf (linkEntry.any fun e => e.ino != 0) (.errno .EEXIST)
  let link := (target.setNlink (target.nlink + 1)).setCtime now
  saveAttr (pAttr.touch now)
  saveAttr link
  saveEntry { parentIno := req.newParentIno, name := req.newName, ino := link.inode,
              mode := link.mode } (.wrapped "failed save link entry")
  pure link

def link (req : LinkReq) (now : Time) : Request Attr :=
  let p := req.newParentIno
  readAttr p fun
    | none => .done (.error (.status .notFound s!"parent inode:{p} not exists"))
    | some pAttr =>
      if !pAttr.isDir then .done (.error (.errno .ENOTDIR))
      else if pAttr.flags &&& flagImmutable != 0 then .done (.error (.errno .EPERM))
      else .txn (linkTxn req now pAttr)

/-! ### DeleteInode -/

def deleteInodeTxn (req : DeleteInodeReq) (entry : Entry) (now now' : Time) : Txn Unit := do
  let pAttr ← getAttr entry.parentIno unknownError
  deleteEntry req.parentIno req.name unknownError
  let attr ← getAttr entry.ino .store
  if 1 < attr.nlink then
    saveAttr ((attr.setNlink (attr.nlink - 1)).setCtime now')
  else
    deleteAttr entry.ino
  saveAttr (pAttr.touch now).bumpEpoch

def deleteInode (req : DeleteInodeReq) (now now' : Time) : Request Unit :=
  let p := req.parentIno
  let n := req.name
  if p = 0 ∧ n = "/" then .done (.ok ())
  else if n = "." ∨ n = ".." then
    .done (.error (.statusReason .invalidArgument s!"cannot delete '{n}'" "INVALID_ENTRY_NAME"))
  else readEntry p n fun
    | .error .notFound => .done (.error (.status .notFound s!"parent inode:{p}/{n} not exists"))
    | .error .keyEqPrefix =>
      let e := StoreErr.msg .keyEqPrefix
      .done (.error (.status .internal
        s!"failed to load entry:{n} under {p} from database: {e}"))
    | .ok entry =>
      let i := entry.ino
      if entry.isDir then
        .done (.error (.status .aborted s!"the inode:{i} is a directory not a file"))
      else .txn (deleteInodeTxn req entry now now')

/-! ### DeleteDirInode -/

def bareAttr (i : Ino) : Attr := { toAttr .empty with inode := i }

def recIno : (k : Key) → Rec k → Ino
  | .attr i, _ => i
  | .entry _ _, r => r.1.ino

def childItems (m : Store) : Multiset Attr :=
  m.entries.map fun x => bareAttr (recIno x.1 x.2)

def childAttrKeys (m : Store) : Finset Key :=
  ((childItems m).map fun a => Key.attr a.inode).toFinset

/-- `doDeleteDir`, followed by `next` when it returns no error. The loop over the
children calls the function again for each item that is a directory; every item
has the same parent and name, so the loop is an iteration. -/
def doDeleteDir {ρ : Type} : Nat → Ino → String → Request ρ → Request ρ
  | 0, _, _, _ => .done (.error .panic)
  | fuel + 1, parentIno, name, next =>
    readEntry parentIno name fun
      | .error .notFound => next
      | .error .keyEqPrefix => .done (.error (unknownError .keyEqPrefix))
      | .ok entry =>
        if entry.isFile then
          .done (.error (.status .invalidArgument s!"inode:{parentIno} is not a dir"))
        else .scan (inBucket entry.ino) fun children =>
          (doDeleteDir fuel (bareAttr entry.ino).parentIno (bareAttr entry.ino).name)^[
              (childItems children).countP fun a => a.isDir]
            (.write [.del (children.keys ∪ {.entry entry.parentIno entry.name})]
              (.write [.del (childAttrKeys children ∪ {.attr entry.ino})] next))

def deletedDirParent (pAttr : Attr) (now : Time) : Attr :=
  ((pAttr.setNlink (pAttr.nlink - 1)).touch now).bumpEpoch

def deleteDirInode (req : DeleteDirInodeReq) (now : Time) : Request Unit :=
  let p := req.parentIno
  readAttr p fun
    | none => .done (.error (unknownError .notFound))
    | some pAttr =>
      readEntry p req.name fun
        | .error .notFound => .done (.error (.status .notFound s!"inode:{p} not exists"))
        | .error .keyEqPrefix => .done (.error (unknownError .keyEqPrefix))
        | .ok _ =>
          doDeleteDir 1 p req.name
            (.write [.put (.attr pAttr.inode) (.ofAttr (deletedDirParent pAttr now))]
              (.done (.ok ())))

/-! ### Rename -/

def accessMode (attr : Attr) (uid : UInt32) (gids : List UInt32) : UInt8 :=
  if uid = 0 then 7
  else if uid = attr.uid then (attr.mode >>> 6).toUInt8 &&& 7
  else if attr.gid ∈ gids then (attr.mode >>> 3).toUInt8 &&& 7
  else (attr.mode &&& 7).toUInt8

def accessDenied (c : Caller) (attr : Attr) (mmask : UInt8) : Bool :=
  c.uid != 0 && accessMode attr c.uid c.gids &&& mmask != mmask

def Attr.hasFlag (a : Attr) (f : UInt32) : Bool := a.flags &&& f != 0

def Attr.sticky (a : Attr) : Bool := a.mode &&& stickyBit != 0

def dueForUpdate (now : Time) (sec : Int) (nsec : UInt32) : Bool :=
  (now.sec - sec) * 1000000000 + ((now.nsec.toNat : Int) - nsec.toNat) ≥ 10000000

structure RenameVars where
  spa : Attr
  dpa : Attr
  sa : Attr
  da : Option Attr
  supdate : Bool
  dupdate : Bool

def renameChecks (c : Caller) (req : RenameReq) (spa dpa sa : Attr) : Txn Unit := do
  Body.failIf (!spa.isDir || !dpa.isDir) (.errno .ENOTDIR)
  Body.failIf (accessDenied c spa (modeMaskW ||| modeMaskX)) (.errno .EACCES)
  Body.failIf (accessDenied c dpa (modeMaskW ||| modeMaskX)) (.errno .EACCES)
  Body.failIf (spa.hasFlag flagAppend || spa.hasFlag flagImmutable ||
    dpa.hasFlag flagImmutable || sa.hasFlag flagAppend || sa.hasFlag flagImmutable)
    (.errno .EPERM)
  Body.failIf (req.parentSrcIno != req.parentDstIno && spa.sticky && c.uid != 0 &&
    c.uid != sa.uid && (c.uid != spa.uid || sa.isDir)) (.errno .EACCES)

def exchangeVars (req : RenameReq) (v : RenameVars) (da : Attr) : RenameVars :=
  if req.parentSrcIno != req.parentDstIno then
    if da.isDir then
      { v with
        da := some (da.setParent req.parentSrcIno)
        dpa := v.dpa.setNlink (v.dpa.nlink - 1)
        spa := v.spa.setNlink (v.spa.nlink + 1)
        supdate := true
        dupdate := true }
    else if 0 < da.parentIno then
      { v with da := some (da.setParent req.parentSrcIno) }
    else { v with da := some da }
  else { v with da := some da }

def replaceVars (v : RenameVars) (da : Attr) : Txn RenameVars :=
  if da.isDir then do
    let n ← countEntries da.inode
    Body.failIf (0 < n) (.errno .ENOTEMPTY)
    pure { v with
      da := some da
      dpa := v.dpa.setNlink (v.dpa.nlink - 1)
      dupdate := true }
  else pure { v with da := some (da.setNlink (da.nlink - 1)) }

def dstVars (req : RenameReq) (v : RenameVars) (da : Attr) : Txn RenameVars :=
  if req.flags = renameExchange then pure (exchangeVars req v da) else replaceVars v da

def renameDst (c : Caller) (req : RenameReq) (now : Time) (v : RenameVars) :
    Option Entry → Txn RenameVars
  | none =>
    if req.flags = renameExchange then .throw (.errno .ENOENT) else pure v
  | some de => do
    Body.failIf (req.flags == renameNoReplace) (.errno .EEXIST)
    let da ← getAttr de.ino fun _ => .errno .ENOENT
    Body.failIf (da.hasFlag flagAppend || da.hasFlag flagImmutable) (.errno .EPERM)
    let v' ← dstVars req v (da.setCtime now)
    Body.failIf (c.uid != 0 && da.sticky && c.uid != v'.dpa.uid && c.uid != da.uid)
      (.errno .EACCES)
    pure v'

def renameSticky (c : Caller) (v : RenameVars) : Txn Unit :=
  if c.uid != 0 && v.spa.sticky && c.uid != v.spa.uid then
    match v.da with
    | none => .throw .panic
    | some da => Body.failIf (c.uid != da.uid) (.errno .EACCES)
  else pure ()

def moveDir (req : RenameReq) (v : RenameVars) : RenameVars :=
  if req.parentSrcIno != req.parentDstIno && v.sa.isDir then
    { v with
      spa := v.spa.setNlink (v.spa.nlink - 1)
      dpa := v.dpa.setNlink (v.dpa.nlink + 1)
      supdate := true
      dupdate := true }
  else v

def touchVars (now : Time) (v : RenameVars) : RenameVars :=
  let s := v.supdate || dueForUpdate now v.spa.mtime v.spa.ctimens
  let d := v.dupdate || dueForUpdate now v.dpa.mtime v.dpa.mtimens
  { v with
    spa := if s then v.spa.touch now else v.spa
    dpa := if d then v.dpa.touch now else v.dpa
    sa := v.sa.setCtime now
    supdate := s
    dupdate := d }

def dropReplaced (da : Attr) : Txn Unit :=
  if !da.isDir && 0 < da.nlink then saveAttr da
  else if da.isFile then deleteAttr da.inode
  else if da.isSymlink then deleteAttr da.inode
  else pure ()

def exchangeEntries (se : Entry) : Option Attr → Txn Unit
  | some da => do
    saveEntryAny se
    saveAttr da
  | none => saveEntryAny se

def dropDst : Option Entry → Option Attr → Txn Unit
  | some de, some da => do
    dropReplaced da
    deleteEntry de.parentIno de.name .store
  | _, _ => pure ()

def renamedEntry (req : RenameReq) (se : Entry) : Entry where
  parentIno := req.parentDstIno
  name := req.newName
  ino := se.ino
  mode := se.mode

def moveEntries (req : RenameReq) (se : Entry) (de : Option Entry) (da : Option Attr) :
    Txn Unit := do
  deleteEntry se.parentIno se.name .store
  dropDst de da
  saveEntry (renamedEntry req se) .store

def renameEntries (req : RenameReq) (se : Entry) (de : Option Entry) (da : Option Attr) :
    Txn Unit :=
  if req.flags = renameExchange then exchangeEntries se da else moveEntries req se de da

def renamedAttr (req : RenameReq) (sa : Attr) : Attr :=
  { (sa.setParent req.parentDstIno).bumpEpoch with name := req.newName }

def renameTxn (c : Caller) (req : RenameReq) (now : Time) : Txn RenameResp := do
  let se ← getEntry req.parentSrcIno req.oldName fun _ => .errno .ENOENT
  let spa ← getAttr req.parentSrcIno fun _ => .errno .ENOENT
  let dpa ← getAttr req.parentDstIno fun _ => .errno .ENOENT
  let sa ← getAttr se.ino fun _ => .errno .ENOENT
  renameChecks c req spa dpa sa
  let de ← findEntry req.parentDstIno req.newName
  let v ← renameDst c req now ⟨spa, dpa, sa, none, false, false⟩ de
  renameSticky c v
  let v := touchVars now (moveDir req v)
  renameEntries req se de v.da
  saveAttrIf (req.parentDstIno != req.parentSrcIno && v.supdate) v.spa.bumpEpoch
  saveAttr (renamedAttr req v.sa)
  saveAttrIf v.dupdate v.dpa
  pure { oldEntry := v.sa.toPbEntry
         newEntry := (renamedAttr req v.sa).toPbEntry
         deletedIno := (v.da.map fun da => da.inode).getD 0 }

def rename (c : Caller) (req : RenameReq) (now : Time) : Request RenameResp :=
  if req.flags = 0 ∨ req.flags = renameNoReplace ∨ req.flags = renameExchange then
    .txn (renameTxn c req now)
  else if req.flags = renameWhiteout ∨ req.flags = renameNoReplace ||| renameWhiteout then
    .done (.error (.errno .ENOTSUP))
  else .done (.error (.errno .EINVAL))

end HugoFS.Meta
