import Mathlib.Data.Finmap

/-!
# Records of the metadata service

The service keeps the attributes of an inode under `a/<ino>` and the directory entries under
`e/<parent>/<name>`. A key here is the structured form of such a text, and a stored record is a
subtype that ties it to its key. Link counts, epochs and flags are 32-bit words and wrap.
-/

namespace HugoFS.Meta

abbrev Ino := UInt64

/-! ### File modes -/

def modeDir : UInt32 := 0x80000000
def modeSymlink : UInt32 := 0x08000000
def modeDevice : UInt32 := 0x04000000
def modeNamedPipe : UInt32 := 0x02000000
def modeSocket : UInt32 := 0x01000000
def modeSetuid : UInt32 := 0x00800000
def modeSetgid : UInt32 := 0x00400000
def modeCharDevice : UInt32 := 0x00200000
def modeSticky : UInt32 := 0x00100000
def modeIrregular : UInt32 := 0x00080000

def modeType : UInt32 :=
  modeDir ||| modeSymlink ||| modeNamedPipe ||| modeSocket ||| modeDevice |||
    modeCharDevice ||| modeIrregular

def modeIsDir (m : UInt32) : Bool := m &&& modeDir != 0

def modeIsRegular (m : UInt32) : Bool := m &&& modeType == 0

def modeIsSymlink (m : UInt32) : Bool := m &&& modeSymlink != 0

theorem modeIsRegular_eq_false_of_isDir {m : UInt32} (h : modeIsDir m = true) :
    modeIsRegular m = false := by
  by_contra hr
  have h0 : m &&& modeType = 0 := by simpa [modeIsRegular] using hr
  have hd : m &&& modeDir = (m &&& modeType) &&& modeDir := by
    rw [UInt32.and_assoc]
    rfl
  rw [h0, UInt32.zero_and] at hd
  simp [modeIsDir, hd] at h

/-! ### Constants -/

def renameNoReplace : UInt32 := 2
def renameExchange : UInt32 := 4
def renameWhiteout : UInt32 := 8

def flagImmutable : UInt32 := 1
def flagAppend : UInt32 := 2

def modeMaskW : UInt8 := 2
def modeMaskX : UInt8 := 1

def stickyBit : UInt32 := 0o1000

def rootIno : Ino := 1

/-! ### Records -/

structure Time where
  sec : Int
  nsec : UInt32
deriving DecidableEq

structure Attr where
  inode : Ino
  size : UInt64
  mtime : Int
  mtimens : UInt32
  atime : Int
  atimens : UInt32
  ctime : Int
  ctimens : UInt32
  uid : UInt32
  gid : UInt32
  mode : UInt32
  nlink : UInt32
  rdev : UInt32
  linkTarget : String
  flags : UInt32
  epoch : UInt32
  parentIno : Ino
  name : String
deriving DecidableEq

namespace Attr

def isDir (a : Attr) : Bool := modeIsDir a.mode

def isFile (a : Attr) : Bool := modeIsRegular a.mode

def isSymlink (a : Attr) : Bool := modeIsSymlink a.mode

/-- A change of the contents. -/
def touch (a : Attr) (now : Time) : Attr :=
  { a with mtime := now.sec, mtimens := now.nsec, ctime := now.sec, ctimens := now.nsec }

def setCtime (a : Attr) (now : Time) : Attr :=
  { a with ctime := now.sec, ctimens := now.nsec }

def setNlink (a : Attr) (n : UInt32) : Attr := { a with nlink := n }

def bumpEpoch (a : Attr) : Attr := { a with epoch := a.epoch + 1 }

def setParent (a : Attr) (p : Ino) : Attr := { a with parentIno := p }

@[simp] theorem touch_inode (a : Attr) (now : Time) : (a.touch now).inode = a.inode := rfl
@[simp] theorem touch_mode (a : Attr) (now : Time) : (a.touch now).mode = a.mode := rfl
@[simp] theorem touch_nlink (a : Attr) (now : Time) : (a.touch now).nlink = a.nlink := rfl
@[simp] theorem setCtime_inode (a : Attr) (now : Time) : (a.setCtime now).inode = a.inode := rfl
@[simp] theorem setCtime_mode (a : Attr) (now : Time) : (a.setCtime now).mode = a.mode := rfl
@[simp] theorem setCtime_nlink (a : Attr) (now : Time) : (a.setCtime now).nlink = a.nlink := rfl
@[simp] theorem setNlink_inode (a : Attr) (n : UInt32) : (a.setNlink n).inode = a.inode := rfl
@[simp] theorem setNlink_mode (a : Attr) (n : UInt32) : (a.setNlink n).mode = a.mode := rfl
@[simp] theorem setNlink_nlink (a : Attr) (n : UInt32) : (a.setNlink n).nlink = n := rfl
@[simp] theorem bumpEpoch_inode (a : Attr) : a.bumpEpoch.inode = a.inode := rfl
@[simp] theorem bumpEpoch_mode (a : Attr) : a.bumpEpoch.mode = a.mode := rfl
@[simp] theorem bumpEpoch_nlink (a : Attr) : a.bumpEpoch.nlink = a.nlink := rfl
@[simp] theorem setParent_inode (a : Attr) (p : Ino) : (a.setParent p).inode = a.inode := rfl
@[simp] theorem setParent_mode (a : Attr) (p : Ino) : (a.setParent p).mode = a.mode := rfl
@[simp] theorem setParent_nlink (a : Attr) (p : Ino) : (a.setParent p).nlink = a.nlink := rfl

theorem isDir_eq_of_mode {a b : Attr} (h : a.mode = b.mode) : a.isDir = b.isDir := by
  rw [isDir, isDir, h]

@[simp] theorem touch_isDir (a : Attr) (now : Time) : (a.touch now).isDir = a.isDir := rfl
@[simp] theorem setCtime_isDir (a : Attr) (now : Time) : (a.setCtime now).isDir = a.isDir := rfl
@[simp] theorem setNlink_isDir (a : Attr) (n : UInt32) : (a.setNlink n).isDir = a.isDir := rfl
@[simp] theorem bumpEpoch_isDir (a : Attr) : a.bumpEpoch.isDir = a.isDir := rfl
@[simp] theorem setParent_isDir (a : Attr) (p : Ino) : (a.setParent p).isDir = a.isDir := rfl

end Attr

/-- The fields of a request to change attributes; `none` is a field that is not set. -/
structure ModifyAttr where
  size : Option UInt64
  atime : Option Int
  atimens : Option UInt32
  mtime : Option Int
  mtimens : Option UInt32
  ctime : Option Int
  ctimens : Option UInt32
  uid : Option UInt32
  gid : Option UInt32
  mode : Option UInt32
  nlink : Option UInt32
  rdev : Option UInt32
  linkTarget : Option String
  flags : Option UInt32
deriving DecidableEq

def ModifyAttr.empty : ModifyAttr where
  size := none
  atime := none
  atimens := none
  mtime := none
  mtimens := none
  ctime := none
  ctimens := none
  uid := none
  gid := none
  mode := none
  nlink := none
  rdev := none
  linkTarget := none
  flags := none

def ModifyAttr.ofMode (m : UInt32) : ModifyAttr := { ModifyAttr.empty with mode := some m }

def toAttr (m : ModifyAttr) : Attr where
  inode := 0
  size := m.size.getD 0
  mtime := m.mtime.getD 0
  mtimens := m.mtimens.getD 0
  atime := m.atime.getD 0
  atimens := m.atimens.getD 0
  ctime := m.ctime.getD 0
  ctimens := m.ctimens.getD 0
  uid := m.uid.getD 0
  gid := m.gid.getD 0
  mode := m.mode.getD 0
  nlink := m.nlink.getD 0
  rdev := m.rdev.getD 0
  linkTarget := m.linkTarget.getD ""
  flags := m.flags.getD 0
  epoch := 0
  parentIno := 0
  name := ""

structure Entry where
  parentIno : Ino
  name : String
  ino : Ino
  mode : UInt32
deriving DecidableEq

namespace Entry

def isDir (e : Entry) : Bool := modeIsDir e.mode

def isFile (e : Entry) : Bool := modeIsRegular e.mode

end Entry

structure PbEntry where
  name : String
  parentIno : Ino
  attr : Attr
deriving DecidableEq

def Attr.toPbEntry (a : Attr) : PbEntry where
  name := a.name
  parentIno := a.parentIno
  attr := a

/-! ### Errors -/

inductive StoreErr
  | notFound
  | keyEqPrefix
deriving DecidableEq

def StoreErr.msg : StoreErr → String
  | .notFound => "not found"
  | .keyEqPrefix => "formatted key equals to formatted prefix"

inductive Code
  | invalidArgument
  | notFound
  | aborted
  | internal
deriving DecidableEq

inductive Errno
  | ENOENT
  | EPERM
  | EACCES
  | EEXIST
  | ENOTDIR
  | ENOTEMPTY
  | EINVAL
  | ENOTSUP
deriving DecidableEq

inductive Err
  | errno (e : Errno)
  | status (c : Code) (msg : String)
  | statusReason (c : Code) (msg reason : String)
  | store (e : StoreErr)
  | wrapped (msg : String) (e : StoreErr)
  | panic
deriving DecidableEq

def unknownError (e : StoreErr) : Err :=
  .status .internal ("unknown error: " ++ e.msg)

/-! ### Keys and stored records -/

inductive Key
  | attr (i : Ino)
  | entry (p : Ino) (n : String)
deriving DecidableEq

/-- What is stored under a key says which key that is. -/
def Rec : Key → Type
  | .attr i => {a : Attr // a.inode = i}
  | .entry p n => {e : Entry // e.parentIno = p ∧ e.name = n}

instance instDecidableEqRec : (k : Key) → DecidableEq (Rec k)
  | .attr i => inferInstanceAs (DecidableEq {a : Attr // a.inode = i})
  | .entry p n => inferInstanceAs (DecidableEq {e : Entry // e.parentIno = p ∧ e.name = n})

def Rec.ofAttr (a : Attr) : Rec (.attr a.inode) := ⟨a, rfl⟩

def Rec.ofEntry (e : Entry) : Rec (.entry e.parentIno e.name) := ⟨e, rfl, rfl⟩

abbrev Store := Finmap Rec

/-- The keys under `e/<p>/`. -/
def inBucket (p : Ino) : Key → Bool
  | .attr _ => false
  | .entry q _ => q == p

def trimSuffix (n : String) : String :=
  if n.toList.getLast? = some '/' then String.ofList n.toList.dropLast else n

end HugoFS.Meta
