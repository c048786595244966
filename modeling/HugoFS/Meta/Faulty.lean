import HugoFS.Meta.DeleteDir
import HugoFS.Meta.UpdateAttr
import HugoFS.Store.Txn

/-!
# The inode service over an engine that fails

The calls of the inode service once more, with what they do when an operation of the store
fails.
-/

namespace HugoFS.Meta.Faulty

open KV Store Call

/-! ### Errors -/

/-- Errors of the engine. Only TiKV drops `commit`, see `reported`. -/
inductive EngineErr
  | keyNotFound
  | commit
  | other

/-- What the store package makes of them. -/
inductive LoadErr
  | store (e : StoreErr)
  | engine

def LoadErr.ofEngine : EngineErr → LoadErr
  | .keyNotFound => .store .notFound
  | _ => .engine

def LoadErr.ofDelete : Backend → EngineErr → LoadErr
  | .badger, e => .ofEngine e
  | .tikv, _ => .engine

/-- What the client gets. The texts of the engine are left out. -/
inductive CallErr
  | plain (e : Err)
  | engineStatus (c : Code) (msg : String)
  | engine (msg : String)

def unknownError : LoadErr → CallErr
  | .store e => .plain (Meta.unknownError e)
  | .engine => .engineStatus .internal "unknown error: "

def asIs : LoadErr → CallErr
  | .store e => .plain (.store e)
  | .engine => .engine ""

def wrapped (msg : String) : LoadErr → CallErr
  | .store e => .plain (.wrapped msg e)
  | .engine => .engine (msg ++ ": ")

def always (e : Err) : LoadErr → CallErr := fun _ => .plain e

/-! ### Operations of the store package -/

abbrev FTxn := Prog Rec Unit EngineErr CallErr

/-- Badger drops a trailing slash of the key when it reads. -/
def readName : Backend → String → String
  | .badger, n => trimSuffix n
  | .tikv, n => n

section Callbacks

variable (b : Backend)

def getAttr (i : Ino) (onErr : LoadErr → CallErr) : FTxn Attr :=
  .get (.attr i) fun
    | .ok (some r) => .ret (.ok r.1)
    | .ok none => .throw (onErr (.store .notFound))
    | .error e => .throw (onErr (.ofEngine e))

def getEntry (p : Ino) (n : String) (onErr : LoadErr → CallErr) : FTxn Entry :=
  if n = "" then .throw (onErr (.store .keyEqPrefix))
  else .get (.entry p (readName b n)) fun
    | .ok (some r) => .ret (.ok r.1)
    | .ok none => .throw (onErr (.store .notFound))
    | .error e => .throw (onErr (.ofEngine e))

/-- An error counts as a missing entry. -/
def findEntry (p : Ino) (n : String) : FTxn (Option Entry) :=
  if n = "" then .ret (.ok none)
  else .get (.entry p (readName b n)) fun
    | .ok r => .ret (.ok (r.map fun r => r.1))
    | .error _ => .ret (.ok none)

def countEntries (p : Ino) : FTxn Nat :=
  .scan (inBucket p) fun
    | .ok m => .ret (.ok m.keys.card)
    | .error _ => .ret (.ok 0)

def afterWrite (onErr : LoadErr → CallErr) : Option EngineErr → FTxn Unit
  | some _ => .throw (onErr .engine)
  | none => .ret (.ok ())

def afterDelete (onErr : LoadErr → CallErr) : Option EngineErr → FTxn Unit
  | some e => .throw (onErr (.ofDelete b e))
  | none => .ret (.ok ())

def saveAttrs (as : List Attr) (onErr : LoadErr → CallErr) : FTxn Unit :=
  .write (as.map fun a => .put (.attr a.inode) (.ofAttr a)) (afterWrite onErr)

def saveAttrIf (b : Bool) (a : Attr) (onErr : LoadErr → CallErr) : FTxn Unit :=
  if b then saveAttrs [a] onErr else .ret (.ok ())

def saveEntry (e : Entry) (onErr : LoadErr → CallErr) : FTxn Unit :=
  if e.name = "" then .throw (onErr (.store .keyEqPrefix))
  else .write [.put (.entry e.parentIno e.name) (.ofEntry e)] (afterWrite onErr)

def deleteAttr (i : Ino) (onErr : LoadErr → CallErr) : FTxn Unit :=
  .write [.del (.attr i)] (afterDelete b onErr)

def deleteEntry (p : Ino) (n : String) (onErr : LoadErr → CallErr) : FTxn Unit :=
  if n = "" then .throw (onErr (.store .keyEqPrefix))
  else .write [.del (.entry p n)] (afterDelete b onErr)

/-- An error is dropped, and the inode number is zero. -/
def nextIno : FTxn Ino :=
  .incr () fun
    | .ok n => .ret (.ok n)
    | .error _ => .ret (.ok 0)

/-! ### Transactions of the service -/

def createInodeTxn (req : CreateInodeReq) (now : Time) : FTxn Attr := do
  let p := req.parentIno
  let pAttr ← getAttr p (always (.status .notFound s!"parent inode:{p} not exists"))
  Prog.failIf (!pAttr.isDir) (.plain (.errno .ENOTDIR))
  Prog.failIf (pAttr.flags &&& flagImmutable != 0) (.plain (.errno .EPERM))
  let entry ← findEntry b p req.itemName
  Prog.failIf (entry.any fun e => e.ino != 0) (.plain (.errno .EEXIST))
  match req.attr with
  | none => .panic
  | some m =>
    let ino ← nextIno
    let new := newInode ino now { toAttr m with parentIno := p, name := req.itemName } pAttr
    saveEntry { parentIno := p, name := req.itemName, ino := new.1.inode, mode := new.1.mode }
      (wrapped "failed save new entry")
    saveAttrs [new.2, new.1] (wrapped "save new inode")
    pure new.1

def linkTxn (req : LinkReq) (now : Time) (pAttr : Attr) : FTxn Attr := do
  let i := req.ino
  let target ← getAttr i (always (.status .notFound s!"origin inode:{i} not exists"))
  Prog.failIf target.isDir (.plain (.errno .EPERM))
  let linkEntry ← findEntry b req.newParentIno req.newName
  Prog.failIf (linkEntry.any fun e => e.ino != 0) (.plain (.errno .EEXIST))
  let link := (target.setNlink (target.nlink + 1)).setCtime now
  saveAttrs [pAttr.touch now, link] (wrapped "err save link parent inode and inode")
  saveEntry { parentIno := req.newParentIno, name := req.newName, ino := link.inode,
              mode := link.mode } (wrapped "failed save link entry")
  pure link

def deleteInodeTxn (req : DeleteInodeReq) (entry : Entry) (now now' : Time) : FTxn Unit := do
  let pAttr ← getAttr entry.parentIno unknownError
  deleteEntry b req.parentIno req.name unknownError
  let attr ← getAttr entry.ino asIs
  if 1 < attr.nlink then
    saveAttrs [(attr.setNlink (attr.nlink - 1)).setCtime now'] unknownError
  else
    deleteAttr b entry.ino unknownError
  saveAttrs [(pAttr.touch now).bumpEpoch] unknownError

def renameChecks (c : Caller) (req : RenameReq) (spa dpa sa : Attr) : FTxn Unit := do
  Prog.failIf (!spa.isDir || !dpa.isDir) (.plain (.errno .ENOTDIR))
  Prog.failIf (accessDenied c spa (modeMaskW ||| modeMaskX)) (.plain (.errno .EACCES))
  Prog.failIf (accessDenied c dpa (modeMaskW ||| modeMaskX)) (.plain (.errno .EACCES))
  Prog.failIf (spa.hasFlag flagAppend || spa.hasFlag flagImmutable ||
    dpa.hasFlag flagImmutable || sa.hasFlag flagAppend || sa.hasFlag flagImmutable)
    (.plain (.errno .EPERM))
  Prog.failIf (req.parentSrcIno != req.parentDstIno && spa.sticky && c.uid != 0 &&
    c.uid != sa.uid && (c.uid != spa.uid || sa.isDir)) (.plain (.errno .EACCES))

def replaceVars (v : RenameVars) (da : Attr) : FTxn RenameVars :=
  if da.isDir then do
    let n ← countEntries da.inode
    Prog.failIf (0 < n) (.plain (.errno .ENOTEMPTY))
    pure { v with
      da := some da
      dpa := v.dpa.setNlink (v.dpa.nlink - 1)
      dupdate := true }
  else pure { v with da := some (da.setNlink (da.nlink - 1)) }

def dstVars (req : RenameReq) (v : RenameVars) (da : Attr) : FTxn RenameVars :=
  if req.flags = renameExchange then pure (exchangeVars req v da) else replaceVars v da

def renameDst (c : Caller) (req : RenameReq) (now : Time) (v : RenameVars) :
    Option Entry → FTxn RenameVars
  | none =>
    if req.flags = renameExchange then .throw (.plain (.errno .ENOENT)) else pure v
  | some de => do
    Prog.failIf (req.flags == renameNoReplace) (.plain (.errno .EEXIST))
    let da ← getAttr de.ino (always (.errno .ENOENT))
    Prog.failIf (da.hasFlag flagAppend || da.hasFlag flagImmutable) (.plain (.errno .EPERM))
    let v' ← dstVars req v (da.setCtime now)
    Prog.failIf (c.uid != 0 && da.sticky && c.uid != v'.dpa.uid && c.uid != da.uid)
      (.plain (.errno .EACCES))
    pure v'

def renameSticky (c : Caller) (v : RenameVars) : FTxn Unit :=
  if c.uid != 0 && v.spa.sticky && c.uid != v.spa.uid then
    match v.da with
    | none => .panic
    | some da => Prog.failIf (c.uid != da.uid) (.plain (.errno .EACCES))
  else pure ()

def dropReplaced (da : Attr) : FTxn Unit :=
  if !da.isDir && 0 < da.nlink then saveAttrs [da] asIs
  else if da.isFile then deleteAttr b da.inode asIs
  else if da.isSymlink then deleteAttr b da.inode asIs
  else pure ()

def exchangeEntries (se : Entry) (da : Option Attr) : FTxn Unit :=
  .write (.put (.entry se.parentIno se.name) (.ofEntry se) ::
    (da.map fun a => Edit.put (.attr a.inode) (.ofAttr a)).toList) (afterWrite asIs)

def dropDst : Option Entry → Option Attr → FTxn Unit
  | some de, some da => do
    dropReplaced b da
    deleteEntry b de.parentIno de.name asIs
  | _, _ => pure ()

def moveEntries (req : RenameReq) (se : Entry) (de : Option Entry) (da : Option Attr) :
    FTxn Unit := do
  deleteEntry b se.parentIno se.name asIs
  dropDst b de da
  saveEntry (renamedEntry req se) asIs

def renameEntries (req : RenameReq) (se : Entry) (de : Option Entry) (da : Option Attr) :
    FTxn Unit :=
  if req.flags = renameExchange then exchangeEntries se da else moveEntries b req se de da

def renameTxn (c : Caller) (req : RenameReq) (now : Time) : FTxn RenameResp := do
  let se ← getEntry b req.parentSrcIno req.oldName (always (.errno .ENOENT))
  let spa ← getAttr req.parentSrcIno (always (.errno .ENOENT))
  let dpa ← getAttr req.parentDstIno (always (.errno .ENOENT))
  let sa ← getAttr se.ino (always (.errno .ENOENT))
  renameChecks c req spa dpa sa
  let de ← findEntry b req.parentDstIno req.newName
  let v ← renameDst c req now ⟨spa, dpa, sa, none, false, false⟩ de
  renameSticky c v
  let v := touchVars now (moveDir req v)
  renameEntries b req se de v.da
  saveAttrIf (req.parentDstIno != req.parentSrcIno && v.supdate) v.spa.bumpEpoch asIs
  saveAttrs [renamedAttr req v.sa] asIs
  saveAttrIf v.dupdate v.dpa asIs
  pure { oldEntry := v.sa.toPbEntry
         newEntry := (renamedAttr req v.sa).toPbEntry
         deletedIno := (v.da.map fun da => da.inode).getD 0 }

def updateInodeAttrTxn (c : Caller) (req : UpdateInodeAttrReq) (now : Time) : FTxn Attr := do
  let i := req.ino
  let dirty ← getAttr i (always (.status .notFound s!"inode:{i} not exists"))
  match updateAttr c req now dirty with
  | .error .panic => .panic
  | .error e => .throw (.plain e)
  | .ok a =>
    saveAttrs [a] unknownError
    pure a

end Callbacks

/-! ### Calls of the service -/

inductive FCall (ρ : Type) : Type
  | done (r : Except CallErr ρ)
  | get (k : Key) (next : Except EngineErr (Option (Rec k)) → FCall ρ)
  | scan (p : Key → Bool) (next : Except EngineErr Store → FCall ρ)
  | save (k : Key) (v : Rec k) (next : Option EngineErr → FCall ρ)
  | batchDelete (ks : Finset Key) (next : Option LoadErr → FCall ρ)
  | txn (b : FTxn ρ)

section Calls

variable (b : Backend) {ρ : Type}

def readAttr (i : Ino) (next : Except LoadErr Attr → FCall ρ) : FCall ρ :=
  .get (.attr i) fun
    | .ok (some r) => next (.ok r.1)
    | .ok none => next (.error (.store .notFound))
    | .error e => next (.error (.ofEngine e))

def readEntry (p : Ino) (n : String) (next : Except LoadErr Entry → FCall ρ) :
    FCall ρ :=
  if n = "" then next (.error (.store .keyEqPrefix))
  else .get (.entry p (readName b n)) fun
    | .ok (some r) => next (.ok r.1)
    | .ok none => next (.error (.store .notFound))
    | .error e => next (.error (.ofEngine e))

def createInode (req : CreateInodeReq) (now : Time) : FCall Attr := .txn (createInodeTxn b req now)

def link (req : LinkReq) (now : Time) : FCall Attr :=
  let p := req.newParentIno
  readAttr p fun
    | .error _ => .done (.error (.plain (.status .notFound s!"parent inode:{p} not exists")))
    | .ok pAttr =>
      if !pAttr.isDir then .done (.error (.plain (.errno .ENOTDIR)))
      else if pAttr.flags &&& flagImmutable != 0 then .done (.error (.plain (.errno .EPERM)))
      else .txn (linkTxn b req now pAttr)

def loadEntryMsg (p : Ino) (n : String) : String :=
  s!"failed to load entry:{n} under {p} from database: "

def deleteInode (req : DeleteInodeReq) (now now' : Time) : FCall Unit :=
  let p := req.parentIno
  let n := req.name
  if p = 0 ∧ n = "/" then .done (.ok ())
  else if n = "." ∨ n = ".." then
    .done (.error (.plain (.statusReason .invalidArgument s!"cannot delete '{n}'"
      "INVALID_ENTRY_NAME")))
  else readEntry b p n fun
    | .error (.store .notFound) =>
      .done (.error (.plain (.status .notFound s!"parent inode:{p}/{n} not exists")))
    | .error (.store .keyEqPrefix) =>
      .done (.error (.plain (.status .internal (loadEntryMsg p n ++ StoreErr.msg .keyEqPrefix))))
    | .error .engine => .done (.error (.engineStatus .internal (loadEntryMsg p n)))
    | .ok entry =>
      let i := entry.ino
      if entry.isDir then
        .done (.error (.plain (.status .aborted s!"the inode:{i} is a directory not a file")))
      else .txn (deleteInodeTxn b req entry now now')

def removal (entry : Entry) (children : Store) (next : FCall ρ) : FCall ρ :=
  .batchDelete (children.keys ∪ {.entry entry.parentIno entry.name}) fun
    | some e => .done (.error (asIs e))
    | none => .batchDelete (childAttrKeys children ∪ {.attr entry.ino}) fun
      | some e => .done (.error (asIs e))
      | none => next

def doDeleteDir : Nat → Ino → String → FCall ρ → FCall ρ
  | 0, _, _, _ => .done (.error (.plain .panic))
  | fuel + 1, parentIno, name, next =>
    readEntry b parentIno name fun
      | .error (.store .notFound) => next
      | .error e => .done (.error (unknownError e))
      | .ok entry =>
        if entry.isFile then
          .done (.error (.plain (.status .invalidArgument s!"inode:{parentIno} is not a dir")))
        else .scan (inBucket entry.ino) fun
          | .error e => .done (.error (asIs (.ofEngine e)))
          | .ok children =>
            (doDeleteDir fuel (bareAttr entry.ino).parentIno (bareAttr entry.ino).name)^[
                (childItems children).countP fun a => a.isDir]
              (removal entry children next)

def saveParent (pAttr : Attr) (now : Time) : FCall Unit :=
  let a := deletedDirParent pAttr now
  .save (.attr a.inode) (.ofAttr a) fun
    | some _ => .done (.error (unknownError .engine))
    | none => .done (.ok ())

def deleteDirInode (req : DeleteDirInodeReq) (now : Time) : FCall Unit :=
  let p := req.parentIno
  readAttr p fun
    | .error e => .done (.error (unknownError e))
    | .ok pAttr =>
      readEntry b p req.name fun
        | .error (.store .notFound) =>
          .done (.error (.plain (.status .notFound s!"inode:{p} not exists")))
        | .error e => .done (.error (unknownError e))
        | .ok _ =>
          doDeleteDir b 1 p req.name (saveParent pAttr now)

def rename (c : Caller) (req : RenameReq) (now : Time) : FCall RenameResp :=
  if req.flags = 0 ∨ req.flags = renameNoReplace ∨ req.flags = renameExchange then
    .txn (renameTxn b c req now)
  else if req.flags = renameWhiteout ∨ req.flags = renameNoReplace ||| renameWhiteout then
    .done (.error (.plain (.errno .ENOTSUP)))
  else .done (.error (.plain (.errno .EINVAL)))

def updateInodeAttr (c : Caller) (req : UpdateInodeAttrReq) (now : Time) : FCall Attr :=
  .txn (updateInodeAttrTxn c req now)

theorem doDeleteDir_succ (fuel : ℕ) (p : Ino) (n : String) (next : FCall ρ) :
    doDeleteDir b (fuel + 1) p n next = readEntry b p n fun
      | .error (.store .notFound) => next
      | .error e => .done (.error (unknownError e))
      | .ok entry =>
        if entry.isFile then
          .done (.error (.plain (.status .invalidArgument s!"inode:{p} is not a dir")))
        else .scan (inBucket entry.ino) fun
          | .error e => .done (.error (asIs (.ofEngine e)))
          | .ok children => removal entry children next := by
  rw [doDeleteDir]
  simp only [countP_childItems, Function.iterate_zero, id_eq]

end Calls

/-! ### Execution -/

/-- The commit of an operation outside a transaction is not checked with TiKV. -/
def reported : Backend → EngineErr → Option EngineErr
  | .tikv, .commit => none
  | _, e => some e

/-- Badger drops every error but that of a missing key. -/
def batchDeleteErr : Backend → EngineErr → Option LoadErr
  | .badger, .keyNotFound => some (.store .notFound)
  | .badger, _ => none
  | .tikv, .commit => none
  | .tikv, _ => some .engine

structure Outcome (ρ : Type) where
  ending : Ending CallErr ρ
  stored : Durable Rec Unit
  batchFailed : Bool

def FCall.run {ρ : Type} (b : Backend) (plan : ℕ → Option EngineErr) (o : TxnOutcome CallErr) :
    FCall ρ → ℕ → Durable Rec Unit → Outcome ρ
  | .done r, _, st => ⟨.returned r, st, false⟩
  | .get k next, n, st =>
    (next (match (plan n).bind (reported b) with
      | some e => .error e
      | none => .ok (st.db.lookup k))).run b plan o (n + 1) st
  | .scan p next, n, st =>
    (next (match (plan n).bind (reported b) with
      | some e => .error e
      | none => .ok (st.db.restrict p))).run b plan o (n + 1) st
  | .save k v next, n, st =>
    match plan n with
    | some e => (next (reported b e)).run b plan o (n + 1) st
    | none => (next none).run b plan o (n + 1) { st with db := st.db.insert k v }
  | .batchDelete ks next, n, st =>
    match plan n with
    | some e =>
      let out := (next (batchDeleteErr b e)).run b plan o (n + 1) st
      { out with batchFailed := true }
    | none =>
      (next none).run b plan o (n + 1) { st with db := (Write.del ks).apply st.db }
  | .txn body, n, st =>
    let out := doInTxn b (fun i => plan (n + i)) o body st
    ⟨out.1, out.2, false⟩

end HugoFS.Meta.Faulty
