import HugoFS.Meta.Faulty

/-!
# One failing operation of the store

A call of the inode service during which one operation of the store fails. The calls that write
in one transaction are safe. `DeleteDirInode` uses none, and both stores know errors of a batch
delete that they do not pass on.
-/

namespace HugoFS.Meta.Faulty

open KV Store FCall Write

/-! ### Faults -/

inductive Fault
  | none
  | operation (n : ℕ) (e : EngineErr)
  | newTransaction (e : CallErr)
  | begin_ (e : CallErr)
  | commit (o : CommitOutcome)
  | rollback

def Fault.plan : Fault → ℕ → Option EngineErr
  | .operation n e, i => if i = n then some e else Option.none
  | _, _ => Option.none

/-- A rollback that fails is logged and leaves things as they are. -/
def Fault.outcome : Fault → TxnOutcome CallErr
  | .newTransaction e => { TxnOutcome.good with newTransaction := some e }
  | .begin_ e => { TxnOutcome.good with begin_ := some e }
  | .commit o => { TxnOutcome.good with commit := o }
  | _ => .good

def Clean {ρ : Type} (st : Durable Rec Unit) (out : Outcome ρ) : Prop :=
  (∀ e, out.ending = .returned (.error e) → out.stored.db = st.db) ∧
    (out.batchFailed = true → ∀ r, out.ending ≠ .returned (.ok r))

/-! ### Calls with one transaction -/

variable {b : Backend} {p : Ino}

theorem doInTxn_db_of_error {α : Type} {plan : ℕ → Option EngineErr}
    {o : TxnOutcome CallErr} {cb : FTxn α} {st : Durable Rec Unit} {e : CallErr}
    (h : (doInTxn b plan o cb st).1 = .returned (.error e)) :
    (doInTxn b plan o cb st).2.db = st.db := by
  rw [doInTxn] at h ⊢
  cases hnew : o.newTransaction with
  | some e' => rfl
  | none =>
    simp only [hnew] at h ⊢
    split_ifs with hbegin
    · rfl
    · simp only [if_neg hbegin] at h
      simp only [Backend.deferred, h, Backend.dropped]

inductive FCall.Reads {ρ : Type} : FCall ρ → Prop
  | done (r : Except CallErr ρ) : Reads (.done r)
  | get {k : Key} {next : Except EngineErr (Option (Rec k)) → FCall ρ}
      (h : ∀ v, Reads (next v)) : Reads (.get k next)
  | txn (cb : FTxn ρ) : Reads (.txn cb)

theorem FCall.Reads.clean {ρ : Type} {c : FCall ρ} (h : c.Reads) (b : Backend)
    (plan : ℕ → Option EngineErr) (o : TxnOutcome CallErr) (n : ℕ) (st : Durable Rec Unit) :
    Clean st (c.run b plan o n st) := by
  induction h generalizing n with
  | done r => exact ⟨fun _ _ => rfl, fun h => absurd h (by simp [run])⟩
  | get _ ih => exact ih _ (n + 1)
  | txn cb =>
    refine ⟨fun e he => ?_, fun h => absurd h (by simp [run])⟩
    exact doInTxn_db_of_error he

inductive Op
  | createInode (req : CreateInodeReq) (now : Time)
  | link (req : LinkReq) (now : Time)
  | deleteInode (req : DeleteInodeReq) (now now' : Time)
  | deleteDirInode (req : DeleteDirInodeReq) (now : Time)
  | rename (c : Caller) (req : RenameReq) (now : Time)
  | updateInodeAttr (c : Caller) (req : UpdateInodeAttrReq) (now : Time)

theorem reads_readAttr {ρ : Type} {i : Ino} {next : Except LoadErr Attr → FCall ρ}
    (h : ∀ r, (next r).Reads) : (readAttr i next).Reads := by
  refine .get fun v => ?_
  rcases v with e | _ | r
  · exact h _
  · exact h _
  · exact h _

theorem reads_readEntry {ρ : Type} {n : String}
    {next : Except LoadErr Entry → FCall ρ} (h : ∀ r, (next r).Reads) :
    (readEntry b p n next).Reads := by
  rw [readEntry]
  split_ifs
  · exact h _
  refine .get fun v => ?_
  rcases v with e | _ | r
  · exact h _
  · exact h _
  · exact h _

theorem reads_link (b : Backend) (req : LinkReq) (now : Time) : (link b req now).Reads := by
  rw [link]
  refine reads_readAttr fun r => ?_
  cases r with
  | error e => exact .done _
  | ok pAttr =>
    dsimp only
    split_ifs
    · exact .done _
    · exact .done _
    · exact .txn _

theorem reads_deleteInode (b : Backend) (req : DeleteInodeReq) (now now' : Time) :
    (deleteInode b req now now').Reads := by
  rw [deleteInode]
  split_ifs
  · exact .done _
  · exact .done _
  · refine reads_readEntry fun r => ?_
    rcases r with (_ | _) | entry
    · rename_i e
      cases e <;> exact .done _
    · exact .done _
    · dsimp only
      split_ifs
      · exact .done _
      · exact .txn _

theorem reads_rename (b : Backend) (c : Caller) (req : RenameReq) (now : Time) :
    (rename b c req now).Reads := by
  rw [rename]
  split_ifs
  · exact .txn _
  · exact .done _
  · exact .done _

/-! ### DeleteDirInode -/

def loaded {α : Type} (b : Backend) (f : Option EngineErr) (v : Option α) : Except LoadErr α :=
  match f.bind (reported b) with
  | some e => .error (.ofEngine e)
  | none =>
    match v with
    | some a => .ok a
    | none => .error (.store .notFound)

theorem loaded_ok {α : Type} {f : Option EngineErr} {v : Option α} {a : α}
    (h : loaded b f v = .ok a) : v = some a := by
  unfold loaded at h
  cases hf : f.bind (reported b) with
  | some e =>
    rw [hf] at h
    cases h
  | none =>
    rw [hf] at h
    cases v with
    | none => cases h
    | some a' => exact congrArg some (Except.ok.inj h)

variable {e : EngineErr}

section Run

variable {ρ : Type} {b : Backend} {plan : ℕ → Option EngineErr} {o : TxnOutcome CallErr} {n : ℕ}
  {st : Durable Rec Unit} {next : Option EngineErr → FCall ρ}

theorem FCall.run_readAttr {i : Ino} {next : Except LoadErr Attr → FCall ρ} :
    (readAttr i next).run b plan o n st =
      (next (loaded b (plan n) (attrAt st.db i))).run b plan o (n + 1) st := by
  rw [readAttr, run, attrAt]
  unfold loaded
  cases (plan n).bind (reported b) with
  | some e => rfl
  | none => cases st.db.lookup (.attr i) <;> rfl

theorem FCall.run_readEntry {name : String} {next : Except LoadErr Entry → FCall ρ}
    (hname : name ≠ "") :
    (readEntry b p name next).run b plan o n st =
      (next (loaded b (plan n) (entryAt st.db p (readName b name)))).run b plan o (n + 1) st := by
  rw [readEntry, if_neg hname, run, entryAt]
  unfold loaded
  cases (plan n).bind (reported b) with
  | some e => rfl
  | none => cases st.db.lookup (.entry p (readName b name)) <;> rfl

end Run

/-! The faults that hit `DeleteDirInode` while it deletes. -/

theorem Fault.plan_single {f : Fault} {i j : ℕ} (h : f.plan i = some e)
    (hj : j ≠ i) : f.plan j = Option.none := by
  cases f with
  | operation n e' =>
    rw [plan] at h
    have hi : i = n := (Option.ite_none_right_eq_some.mp h).1
    exact if_neg (hi ▸ hj)
  | _ => rfl

def Fault.Late (b : Backend) (f : Fault) : Prop :=
  (∃ e, f.plan 4 = some e ∧ batchDeleteErr b e = Option.none) ∨ (∃ e, f.plan 5 = some e) ∨
    ∃ e, f.plan 6 = some e ∧ reported b e ≠ Option.none

theorem Fault.Late.plan_eq {f : Fault} (h : f.Late b) {i : ℕ} (hi : i < 4) :
    f.plan i = Option.none := by
  rcases h with ⟨e, he, -⟩ | ⟨e, he⟩ | ⟨e, he, -⟩
  · exact plan_single he (by omega)
  · exact plan_single he (by omega)
  · exact plan_single he (by omega)

section Removal

variable {b : Backend} {f : Fault} {o : TxnOutcome CallErr} {st st' : Durable Rec Unit}
  {entry : Entry} {children : Store} {pAttr : Attr} {now : Time}

theorem run_saveParent {n : ℕ} (h : f.plan n = none) :
    (saveParent pAttr now).run b f.plan o n st =
      ⟨.returned (.ok ()), ⟨putAttr st.db (deletedDirParent pAttr now), st.seq⟩, false⟩ := by
  simp only [saveParent, run, h]
  rfl

theorem run_saveParent_fails {n : ℕ} (h : f.plan n = some e) :
    (saveParent pAttr now).run b f.plan o n st =
      ⟨.returned (match reported b e with
        | some _ => .error (unknownError .engine)
        | none => .ok ()), st, false⟩ := by
  simp only [saveParent, run, h]
  cases reported b e <;> rfl

theorem clean_of_ok {ρ : Type} {out : Outcome ρ} {r : ρ} (hr : out.ending = .returned (.ok r))
    (h : out.batchFailed = false) : Clean st out := by
  refine ⟨fun e he => ?_, fun hb => ?_⟩
  · cases hr.symm.trans he
  · cases h.symm.trans hb

theorem not_clean_of_ok {ρ : Type} {out : Outcome ρ} {r : ρ} (h : out.batchFailed = true)
    (hr : out.ending = .returned (.ok r)) : ¬Clean st out :=
  fun hc => hc.2 h r hr

theorem saveParent_clean (n : ℕ) : Clean st ((saveParent pAttr now).run b f.plan o n st) := by
  rcases hn : f.plan n with _ | e
  · rw [run_saveParent hn]
    exact clean_of_ok rfl rfl
  rw [run_saveParent_fails hn]
  refine ⟨fun _ _ => rfl, fun h => ?_⟩
  cases h

theorem not_clean_of_removed {ρ : Type} {out : Outcome ρ} {e : CallErr}
    (hentry : entryAt st.db entry.parentIno entry.name = some entry)
    (hgone : entryAt out.stored.db entry.parentIno entry.name = none)
    (he : out.ending = .returned (.error e)) : ¬Clean st out := by
  intro hc
  rw [hc.1 e he, hentry] at hgone
  cases hgone

theorem removal_clean_iff (hentry : entryAt st.db entry.parentIno entry.name = some entry) :
    Clean st ((removal entry children (saveParent pAttr now)).run b f.plan o 4 st) ↔
      ¬f.Late b := by
  rw [removal]
  rcases h4 : f.plan 4 with _ | e
  · rw [run, h4]
    dsimp only
    have hgone : entryAt ((del (children.keys ∪ {.entry entry.parentIno entry.name})).apply
        st.db) entry.parentIno entry.name = none := by
      simp [entryAt, apply, Finmap.lookup_restrict]
    rcases h5 : f.plan 5 with _ | e
    · rw [run, h5]
      dsimp only
      have hgone' : entryAt ((del (childAttrKeys children ∪ {.attr entry.ino})).apply
          ((del (children.keys ∪ {.entry entry.parentIno entry.name})).apply st.db))
          entry.parentIno entry.name = none := by
        rw [entryAt, lookup_apply_of_notMem]
        · exact hgone
        · simp [keys, childAttrKeys]
      rcases h6 : f.plan 6 with _ | e
      · rw [run_saveParent h6]
        refine iff_of_true (clean_of_ok rfl rfl) ?_
        simp [Fault.Late, h4, h5, h6]
      rw [run_saveParent_fails h6]
      cases hr : reported b e with
      | some x =>
        exact iff_of_false (not_clean_of_removed hentry hgone' rfl)
          (not_not.mpr (.inr (.inr ⟨e, h6, by simp [hr]⟩)))
      | none =>
        refine iff_of_true (clean_of_ok rfl rfl) ?_
        simp [Fault.Late, h4, h5, h6, hr]
    · rw [run, h5]
      dsimp only
      refine iff_of_false ?_ (not_not.mpr (.inr (.inl ⟨e, h5⟩)))
      cases hr : batchDeleteErr b e with
      | some x => exact not_clean_of_removed hentry hgone rfl
      | none =>
        have h6 : f.plan 6 = none := Fault.plan_single h5 (by decide)
        dsimp only
        rw [run_saveParent h6]
        exact not_clean_of_ok rfl rfl
  · rw [run, h4]
    dsimp only
    have h5 : f.plan 5 = none := Fault.plan_single h4 (by decide)
    have h6 : f.plan 6 = none := Fault.plan_single h4 (by decide)
    cases hr : batchDeleteErr b e with
    | some x =>
      refine iff_of_true ⟨fun _ _ => rfl, fun _ r h => ?_⟩ ?_
      · cases h
      · simp [Fault.Late, h4, h5, h6, hr]
    | none =>
      dsimp only
      rw [run, h5]
      dsimp only
      rw [run_saveParent h6]
      exact iff_of_false (not_clean_of_ok rfl rfl) (not_not.mpr (.inl ⟨e, h4, hr⟩))

end Removal

def Deletes (b : Backend) (s : Store) (req : DeleteDirInodeReq) : Prop :=
  (attrAt s req.parentIno).isSome ∧ req.name ≠ "" ∧
    ∃ e, entryAt s req.parentIno (readName b req.name) = some e ∧ e.isFile = false

theorem entryAt_own_key {s : Store} {n : String} {e : Entry}
    (h : entryAt s p n = some e) : entryAt s e.parentIno e.name = some e := by
  rw [(entryAt_key h).1, (entryAt_key h).2]
  exact h

theorem deleteDirInode_clean_iff (b : Backend) (f : Fault) (req : DeleteDirInodeReq) (now : Time)
    (st : Durable Rec Unit) :
    Clean st ((deleteDirInode b req now).run b f.plan f.outcome 0 st) ↔
      ¬(Deletes b st.db req ∧ f.Late b) := by
  rw [deleteDirInode, FCall.run_readAttr]
  constructor
  · -- a late fault spares the reads, so the deletes are reached
    rintro hclean ⟨⟨hattr, hname, entry, he, hfile⟩, hlate⟩
    obtain ⟨pAttr, hp⟩ := Option.isSome_iff_exists.mp hattr
    rw [hlate.plan_eq (by decide), hp] at hclean
    change Clean st (run _ _ _ (readEntry _ _ _ _) 1 st) at hclean
    rw [FCall.run_readEntry hname, hlate.plan_eq (by decide), he] at hclean
    change Clean st (run _ _ _ (doDeleteDir _ _ _ _ _) 2 st) at hclean
    rw [doDeleteDir_succ, FCall.run_readEntry hname, hlate.plan_eq (by decide), he] at hclean
    change Clean st (run _ _ _ (if entry.isFile = true then _ else _) 3 st) at hclean
    rw [if_neg (by simp [hfile]), run, hlate.plan_eq (by decide)] at hclean
    exact (removal_clean_iff (entryAt_own_key he)).mp hclean hlate
  · intro h
    rcases hp : loaded b (f.plan 0) (attrAt st.db req.parentIno) with e | pAttr
    · exact (FCall.Reads.done _).clean b _ _ _ st
    dsimp only
    by_cases hname : req.name = ""
    · rw [readEntry, if_pos hname]
      exact (FCall.Reads.done _).clean b _ _ _ st
    rw [FCall.run_readEntry hname]
    rcases loaded b (f.plan (0 + 1)) _ with ((_ | _) | _) | _
    · exact (FCall.Reads.done _).clean b _ _ _ st
    · exact (FCall.Reads.done _).clean b _ _ _ st
    · exact (FCall.Reads.done _).clean b _ _ _ st
    · dsimp only
      rw [doDeleteDir_succ, FCall.run_readEntry hname]
      rcases he : loaded b (f.plan (0 + 1 + 1)) _ with ((_ | _) | _) | entry
      · -- the entry is taken for a missing one, and nothing is deleted
        exact saveParent_clean _
      · exact (FCall.Reads.done _).clean b _ _ _ st
      · exact (FCall.Reads.done _).clean b _ _ _ st
      · dsimp only
        by_cases hfile : entry.isFile = true
        · rw [if_pos hfile]
          exact (FCall.Reads.done _).clean b _ _ _ st
        rw [if_neg hfile, run]
        rcases (f.plan (0 + 1 + 1 + 1)).bind (reported b) with _ | e
        · refine (removal_clean_iff (entryAt_own_key (loaded_ok he))).mpr fun hlate => ?_
          exact h ⟨⟨Option.isSome_iff_exists.mpr ⟨pAttr, loaded_ok hp⟩, hname, entry,
            loaded_ok he, by simpa using hfile⟩, hlate⟩
        · exact (FCall.Reads.done _).clean b _ _ _ st

/-! ### All calls -/

def Op.Resp : Op → Type
  | .createInode _ _ => Attr
  | .link _ _ => Attr
  | .deleteInode _ _ _ => Unit
  | .deleteDirInode _ _ => Unit
  | .rename _ _ _ => RenameResp
  | .updateInodeAttr _ _ _ => Attr

def Op.call (b : Backend) : (op : Op) → FCall op.Resp
  | .createInode req now => Faulty.createInode b req now
  | .link req now => Faulty.link b req now
  | .deleteInode req now now' => Faulty.deleteInode b req now now'
  | .deleteDirInode req now => Faulty.deleteDirInode b req now
  | .rename c req now => Faulty.rename b c req now
  | .updateInodeAttr c req now => Faulty.updateInodeAttr c req now

def Op.Exposed (b : Backend) (f : Fault) (s : Store) : Op → Prop
  | .deleteDirInode req _ => Deletes b s req ∧ f.Late b
  | _ => False

/-- A call during which one operation of the store fails is clean, unless it is a
`DeleteDirInode` that the fault hits while it deletes. -/
theorem failed_call_clean_iff (b : Backend) (f : Fault) (op : Op) (st : Durable Rec Unit) :
    Clean st ((op.call b).run b f.plan f.outcome 0 st) ↔ ¬op.Exposed b f st.db := by
  cases op with
  | createInode req now => exact iff_of_true ((FCall.Reads.txn _).clean b _ _ 0 st) id
  | link req now => exact iff_of_true ((reads_link b req now).clean b _ _ 0 st) id
  | deleteInode req now now' =>
    exact iff_of_true ((reads_deleteInode b req now now').clean b _ _ 0 st) id
  | deleteDirInode req now => exact deleteDirInode_clean_iff b f req now st
  | rename c req now => exact iff_of_true ((reads_rename b c req now).clean b _ _ 0 st) id
  | updateInodeAttr c req now => exact iff_of_true ((FCall.Reads.txn _).clean b _ _ 0 st) id

def deleteDirHit (b : Backend) (f : Fault) : Outcome Unit :=
  (deleteDirInode b ⟨1, "d", true⟩ ⟨9, 0⟩).run b f.plan f.outcome 0
    ⟨storeAfter fileInDir, fun _ => none⟩

/-- The deletion of a directory with one file. On Badger the batch delete of the
entries fails and the call succeeds, with every entry still there; on TiKV so it
does when the commit of the batch delete fails. On both, an error of the last save
leaves the client with an error and without the directory. -/
theorem deleteDirInode_fails_unclean :
    ((deleteDirHit .badger (.operation 4 .other)).ending = .returned (.ok ()) ∧
      (deleteDirHit .badger (.operation 4 .other)).batchFailed = true ∧
      (entryAt (deleteDirHit .badger (.operation 4 .other)).stored.db 1 "d").isSome) ∧
    ((deleteDirHit .tikv (.operation 4 .commit)).ending = .returned (.ok ()) ∧
      (deleteDirHit .tikv (.operation 4 .commit)).batchFailed = true) ∧
    ((deleteDirHit .badger (.operation 6 .other)).ending =
        .returned (.error (unknownError .engine)) ∧
      entryAt (storeAfter fileInDir) 1 "d" = some ⟨1, "d", 2, modeDir ||| 0o755⟩ ∧
      entryAt (deleteDirHit .badger (.operation 6 .other)).stored.db 1 "d" = none) := by
  refine ⟨⟨?_, ?_, ?_⟩, ⟨?_, ?_⟩, ?_, ?_, ?_⟩
  · rfl
  · rfl
  · decide
  · rfl
  · rfl
  · rfl
  · decide
  · decide

end HugoFS.Meta.Faulty
