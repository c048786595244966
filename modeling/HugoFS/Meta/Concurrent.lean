import HugoFS.Lib.Isolation
import HugoFS.Meta.DeleteDir
import HugoFS.Meta.RenameEffect

/-!
# Concurrent clients of the metadata service

The calls of the service as operations of interleaved clients. `DoInTxn` drops the error of a
commit, and some calls act on records read outside the transaction that writes them, so
interleaved calls are serializable only when no step gets in the way of another call.
-/

namespace HugoFS.Meta

open KV Runs Call

inductive Reply
  | attr (a : Attr)
  | empty
  | renamed (r : RenameResp)
deriving DecidableEq

inductive MetaOp
  | createInode (req : CreateInodeReq) (ino : Ino) (now : Time)
  | link (req : LinkReq) (now : Time)
  | deleteInode (req : DeleteInodeReq) (now now' : Time)
  | deleteDirInode (req : DeleteDirInodeReq) (now : Time)
  | rename (c : Caller) (req : RenameReq) (now : Time)

def MetaOp.call : MetaOp → Request Reply
  | .createInode req ino now => (Meta.createInode req ino now).map .attr
  | .link req now => (Meta.link req now).map .attr
  | .deleteInode req now now' => (Meta.deleteInode req now now').map fun _ => .empty
  | .deleteDirInode req now => (Meta.deleteDirInode req now).map fun _ => .empty
  | .rename c req now => (Meta.rename c req now).map .renamed

/-! ### Failed calls change nothing -/

theorem failsClean_readAttr {ρ : Type} {i : Ino} {next : Option Attr → Request ρ}
    (h : ∀ a, (next a).FailsClean) : (readAttr i next).FailsClean :=
  failsClean_get fun _ => h _

theorem failsClean_readEntry {ρ : Type} {p : Ino} {n : String}
    {next : Except StoreErr Entry → Request ρ} (h : ∀ e, (next e).FailsClean) :
    (readEntry p n next).FailsClean := by
  rw [readEntry]
  split_ifs
  · exact h _
  · refine failsClean_get fun v => ?_
    cases v <;> exact h _

theorem link_failsClean (req : LinkReq) (now : Time) : (link req now).FailsClean := by
  unfold link
  refine failsClean_readAttr fun a => ?_
  cases a with
  | none => exact failsClean_done _
  | some pAttr =>
    dsimp only
    split_ifs
    · exact failsClean_done _
    · exact failsClean_done _
    · exact failsClean_txn _

theorem deleteInode_failsClean (req : DeleteInodeReq) (now now' : Time) :
    (deleteInode req now now').FailsClean := by
  unfold deleteInode
  dsimp only
  split_ifs
  · exact failsClean_done _
  · exact failsClean_done _
  · refine failsClean_readEntry fun e => ?_
    rcases e with (_ | _) | entry
    · exact failsClean_done _
    · exact failsClean_done _
    · dsimp only
      split_ifs
      · exact failsClean_done _
      · exact failsClean_txn _

theorem deleteDirInode_failsClean (req : DeleteDirInodeReq) (now : Time) :
    (deleteDirInode req now).FailsClean := by
  intro s e he
  rcases deleteDirInode_cases req now s with ⟨⟨err, hr⟩, -⟩ | ⟨pAttr, en, -, -, -, -, hr⟩
  · rw [hr]
  · rw [hr] at he
    cases he

theorem MetaOp.failsClean (o : MetaOp) : o.call.FailsClean := by
  cases o with
  | createInode req ino now => exact (failsClean_txn _).map _
  | link req now => exact (link_failsClean req now).map _
  | deleteInode req now now' => exact (deleteInode_failsClean req now now').map _
  | deleteDirInode req now => exact (deleteDirInode_failsClean req now).map _
  | rename c req now => exact (rename_failsClean c req now).map _

/-! ### Runs of clients -/

abbrev MetaSys (κ : Type) := Sys κ Rec Err Reply MetaOp

def MetaReach {κ : Type} [DecidableEq κ] (ok : MetaSys κ → Move κ MetaOp → Prop) (s : Store) :
    MetaSys κ → Prop :=
  Reach (Move.next MetaOp.call) ok (Sys.start κ s)

def Serializable {κ : Type} (s : Store) (st : MetaSys κ) : Prop :=
  ∃ order, order.Perm (st.log.filter fun x => x.2.isOk) ∧
    Serial MetaOp.call order s st.store

/-- In every run, of any clients from any store, whose steps are all isolated, the
calls are serializable whenever none is in flight. -/
theorem isolated_calls_serializable {κ : Type} [DecidableEq κ] {s : Store} {st : MetaSys κ}
    (h : MetaReach (fun st m => m.Isolated st) s st) (hidle : ∀ c, st.jobs c = none) :
    Serializable s st :=
  ⟨_, .refl _, (serial_of_isolated h hidle).filter_isOk MetaOp.failsClean⟩

/-! ### Sample runs of two clients -/

def movesAfter (s : Store) (moves : List (Move Bool MetaOp)) : MetaSys Bool :=
  exec (Move.next MetaOp.call) moves (Sys.start Bool s)

def createOp (p : Ino) (n : String) (ino : Ino) : MetaOp :=
  .createInode ⟨p, n, some (.ofMode 0o644)⟩ ino ⟨5, 0⟩

def createApart : List (Move Bool MetaOp) :=
  [.issue true (createOp 1 "a" 8), .issue false (createOp 2 "b" 9), .advance true, .advance false,
    .advance true, .advance false]

theorem isolated_calls_serializable_sample :
    Serializable (storeAfter dirAndFile) (movesAfter (storeAfter dirAndFile) createApart) :=
  isolated_calls_serializable (reach_exec (by decide)) (by decide)

def createTogether : List (Move Bool MetaOp) :=
  [.issue true (createOp 1 "a" 8), .issue false (createOp 1 "b" 9), .advance true, .advance false,
    .advance true, .advance false]

def deleteTwice : List (Move Bool MetaOp) :=
  [.issue true (.deleteInode ⟨1, "f"⟩ ⟨5, 0⟩ ⟨5, 0⟩),
    .issue false (.deleteInode ⟨1, "f"⟩ ⟨6, 0⟩ ⟨6, 0⟩),
    .advance true, .advance false, .advance true, .advance true, .advance false, .advance false]

theorem not_serializable_of_two {s : Store} {st : MetaSys Bool}
    (hlen : (st.log.filter fun x => x.2.isOk).length = 2)
    (h : ∀ x ∈ st.log.filter fun x => x.2.isOk, ∀ y ∈ st.log.filter fun x => x.2.isOk,
      ¬Serial MetaOp.call [x, y] s st.store) : ¬Serializable s st := by
  rintro ⟨order, hperm, hs⟩
  obtain ⟨x, y, rfl⟩ := List.length_eq_two.mp (hperm.length_eq.trans hlen)
  exact h x (hperm.subset (by simp)) y (hperm.subset (by simp)) hs

def twoNames : List NsCall := dirAndFile ++ [.link ⟨3, 1, "g"⟩ ⟨3, 0⟩]

/-- Of two files created together in one directory one is lost, although both
calls succeed. Two deletions of one name both succeed and take two links from the
file, so its other name dangles. -/
theorem concurrent_calls_not_serializable :
    (MetaReach (fun _ _ => True) (storeAfter dirAndFile)
        (movesAfter (storeAfter dirAndFile) createTogether) ∧
      (∀ c, (movesAfter (storeAfter dirAndFile) createTogether).jobs c = none) ∧
      (∀ x ∈ (movesAfter (storeAfter dirAndFile) createTogether).log, x.2.isOk = true) ∧
      entryAt (movesAfter (storeAfter dirAndFile) createTogether).store 1 "b" = none ∧
      ¬Serializable (storeAfter dirAndFile)
        (movesAfter (storeAfter dirAndFile) createTogether)) ∧
    (MetaReach (fun _ _ => True) (storeAfter twoNames)
        (movesAfter (storeAfter twoNames) deleteTwice) ∧
      (∀ c, (movesAfter (storeAfter twoNames) deleteTwice).jobs c = none) ∧
      (∀ x ∈ (movesAfter (storeAfter twoNames) deleteTwice).log, x.2.isOk = true) ∧
      links (movesAfter (storeAfter twoNames) deleteTwice).store 3 = 1 ∧
      attrAt (movesAfter (storeAfter twoNames) deleteTwice).store 3 = none ∧
      ¬Serializable (storeAfter twoNames) (movesAfter (storeAfter twoNames) deleteTwice)) := by
  refine ⟨⟨reach_exec ?_, ?_, ?_, ?_, not_serializable_of_two ?_ ?_⟩,
    ⟨reach_exec ?_, ?_, ?_, ?_, ?_, not_serializable_of_two ?_ ?_⟩⟩ <;> decide

end HugoFS.Meta
