import HugoFS.Lib.Bytes
import HugoFS.Lib.Masks
import HugoFS.Meta.Service

/-!
# The identity a request carries

The mount sends the user and the group of a request as decimal texts, and the meta server reads
them back. For a context that is not of the kernel the mount sends its configured user, and
that user once more where the group belongs.
-/

namespace HugoFS.Mount

open ByteString List Option Prod Masks
open Meta (Attr Caller accessDenied accessMode rootAttr)

/-! ### What is sent -/

structure MountOptions where
  uid : UInt32
  gid : UInt32
deriving DecidableEq

inductive Context
  | fuse (caller : Caller)
  | other
deriving DecidableEq

abbrev MD := List (String × List ByteString)

def grpcCaller : Context → MountOptions → Caller
  | .fuse caller, _ => caller
  | .other, opts => { uid := opts.uid, gid := opts.uid }

def newGrpcContext (ctx : Context) (opts : MountOptions) : MD :=
  [("uid", [decimal (grpcCaller ctx opts).uid.toNat]),
    ("gid", [decimal (grpcCaller ctx opts).gid.toNat])]

structure Delivered (sent received : MD) : Prop where
  keys : (received.map Prod.fst).Nodup
  sub : ∀ kv ∈ sent, kv ∈ received

/-! ### What is read back -/

def parseId (v : ByteString) : UInt32 := UInt32.ofInt (atoi v)

def mdStep (c : Caller) (kv : String × List ByteString) : Option Caller :=
  if kv.1 = "uid" then kv.2.head?.map fun v => { c with uid := parseId v }
  else if kv.1 = "gid" then kv.2.head?.map fun v => { c with gid := parseId v }
  else some c

def mdFromContext (md : MD) : Option Caller := md.foldlM mdStep { uid := 0, gid := 0 }

theorem parseId_decimal (n : UInt32) : parseId (decimal n.toNat) = n := by
  have hn : n.toNat < 2 ^ 32 := n.toNat_lt
  have hfits : ((n.toNat : ℤ) % 2 ^ 32).toNat = n.toNat := by omega
  rw [parseId, atoi_decimal (by omega), UInt32.ofInt, hfits, UInt32.ofNat_toNat]

theorem foldlM_mdStep {md : MD} {u g : ByteString} (hu : ∀ v, ("uid", v) ∈ md → v = [u])
    (hg : ∀ v, ("gid", v) ∈ md → v = [g]) (c : Caller) :
    md.foldlM mdStep c = some
      { uid := if "uid" ∈ md.map fst then parseId u else c.uid
        gid := if "gid" ∈ md.map fst then parseId g else c.gid } := by
  induction md generalizing c with
  | nil => rfl
  | cons kv md ih =>
    have hu' : ∀ v, ("uid", v) ∈ md → v = [u] := fun v hv => hu v (mem_cons_of_mem _ hv)
    have hg' : ∀ v, ("gid", v) ∈ md → v = [g] := fun v hv => hg v (mem_cons_of_mem _ hv)
    obtain ⟨k, v⟩ := kv
    rw [foldlM_cons]
    by_cases hku : k = "uid"
    · subst hku
      have hstep : mdStep c ("uid", v) = some { c with uid := parseId u } := by
        rw [hu v mem_cons_self]
        rfl
      rw [hstep, bind_eq_bind, bind_some, ih hu' hg']
      simp only [map_cons, mem_cons, String.reduceEq, false_or, true_or, if_true, ite_self]
    by_cases hkg : k = "gid"
    · subst hkg
      have hstep : mdStep c ("gid", v) = some { c with gid := parseId g } := by
        rw [hg v mem_cons_self]
        rfl
      rw [hstep, bind_eq_bind, bind_some, ih hu' hg']
      simp only [map_cons, mem_cons, String.reduceEq, false_or, true_or, if_true, ite_self]
    · have hstep : mdStep c (k, v) = some c := by
        rw [mdStep, if_neg hku, if_neg hkg]
      rw [hstep, bind_eq_bind, bind_some, ih hu' hg']
      simp only [map_cons, mem_cons, Ne.symm hku, Ne.symm hkg, false_or]

theorem mdFromContext_of_delivered {ctx : Context} {opts : MountOptions} {received : MD}
    (hd : Delivered (newGrpcContext ctx opts) received) :
    mdFromContext received = some (grpcCaller ctx opts) := by
  have hmem : ∀ kv ∈ newGrpcContext ctx opts, ∀ v, (kv.1, v) ∈ received → v = kv.2 := by
    intro kv hkv v hv
    have h := inj_on_of_nodup_map hd.keys hv (hd.sub kv hkv) rfl
    exact congrArg snd h
  have huid := hmem _ mem_cons_self
  have hgid := hmem _ (mem_cons_of_mem _ mem_cons_self)
  have hku : "uid" ∈ received.map fst :=
    mem_map_of_mem (f := fst) (hd.sub _ mem_cons_self)
  have hkg : "gid" ∈ received.map fst :=
    mem_map_of_mem (f := fst) (hd.sub _ (mem_cons_of_mem _ mem_cons_self))
  rw [mdFromContext, foldlM_mdStep huid hgid, if_pos hku, if_pos hkg, parseId_decimal,
    parseId_decimal]

/-! ### Access -/

def classShift (id : Caller) (attr : Attr) : ℕ :=
  if id.uid = attr.uid then 6 else if id.gid = attr.gid then 3 else 0

def Permitted (id : Caller) (attr : Attr) (mask : UInt8) : Prop :=
  id.uid = 0 ∨ ∀ i, mask.toNat.testBit i = true →
    i < 3 ∧ attr.mode.toNat.testBit (classShift id attr + i) = true

theorem testBit_accessMode {id : Caller} (h0 : id.uid ≠ 0) (attr : Attr) (i : ℕ) :
    (accessMode attr id.uid id.gids).toNat.testBit i = true ↔
      i < 3 ∧ attr.mode.toNat.testBit (classShift id attr + i) = true := by
  rw [accessMode, if_neg h0, classShift]
  by_cases hu : id.uid = attr.uid
  · rw [if_pos hu, if_pos hu]
    exact testBit_triple attr.mode (by decide) i
  rw [if_neg hu, if_neg hu]
  have hgids : attr.gid ∈ id.gids ↔ id.gid = attr.gid := by
    rw [Caller.gids, mem_singleton, eq_comm]
  by_cases hg : id.gid = attr.gid
  · rw [if_pos (hgids.mpr hg), if_pos hg]
    exact testBit_triple attr.mode (by decide) i
  rw [if_neg (mt hgids.mp hg), if_neg hg]
  -- the bits of the others are masked before they are cut to a byte
  have hcut : (attr.mode &&& 7).toUInt8 = (attr.mode >>> 0).toUInt8 &&& 7 := by
    rw [UInt32.toUInt8_and, UInt32.shiftRight_zero]
    rfl
  rw [hcut]
  exact testBit_triple attr.mode (by decide) i

theorem accessDenied_eq_false_iff (id : Caller) (attr : Attr) (mask : UInt8) :
    accessDenied id attr mask = false ↔ Permitted id attr mask := by
  rw [accessDenied, Permitted, Bool.and_eq_false_iff, bne_eq_false_iff_eq, bne_eq_false_iff_eq,
    byte_and_eq_iff]
  by_cases h0 : id.uid = 0
  · exact iff_of_true (.inl h0) (.inl h0)
  · simp only [testBit_accessMode h0]

/-! ### The identity of a request -/

def identity : Context → MountOptions → Caller
  | .fuse caller, _ => caller
  | .other, opts => { uid := opts.uid, gid := opts.gid }

def DecidesFor (c id : Caller) : Prop :=
  ∀ (attr : Attr) (mask : UInt8), accessDenied c attr mask = false ↔ Permitted id attr mask

def groupReadable (gid : UInt32) : Attr := { rootAttr ⟨0, 0⟩ gid gid with mode := 0o040 }

theorem decidesFor_self (id : Caller) : DecidesFor id id := accessDenied_eq_false_iff id

theorem not_decidesFor {u g : UInt32} (h0 : u ≠ 0) (hne : u ≠ g) :
    ¬ DecidesFor { uid := u, gid := u } { uid := u, gid := g } := by
  intro h
  have hcls : classShift { uid := u, gid := g } (groupReadable g) = 3 :=
    (if_neg hne).trans (if_pos rfl)
  have hother : classShift { uid := u, gid := u } (groupReadable g) = 0 :=
    (if_neg hne).trans (if_neg hne)
  have hmode : (groupReadable g).mode.toNat = 2 ^ 5 := rfl
  -- reading is the third of the permissions
  have hread : ∀ i, (4 : UInt8).toNat.testBit i = true ↔ i = 2 := by
    intro i
    have h4 : (4 : UInt8).toNat = 2 ^ 2 := rfl
    rw [h4, Nat.testBit_two_pow, decide_eq_true_eq, eq_comm]
  have hgrant : Permitted { uid := u, gid := g } (groupReadable g) 4 := by
    right
    intro i hi
    rw [(hread i).mp hi, hcls, hmode]
    decide
  have hsent := (accessDenied_eq_false_iff _ _ _).mp ((h (groupReadable g) 4).mpr hgrant)
  rcases hsent with hu | hbits
  · exact h0 hu
  have hbit := (hbits 2 ((hread 2).mpr rfl)).2
  rw [hother, hmode] at hbit
  exact absurd hbit (by decide)

/-- The server acts for the identity of a request, and decides about access as the rule does
for that identity, when the request comes from the kernel or the mount's group has the number
of its user. Its decisions are those of the rule for a mount of the superuser as well. -/
theorem identity_recovered_iff {ctx : Context} {opts : MountOptions} {received : MD}
    (hd : Delivered (newGrpcContext ctx opts) received) :
    (mdFromContext received = some (identity ctx opts) ↔
        ctx ≠ .other ∨ opts.uid = opts.gid) ∧
      ((∃ c, mdFromContext received = some c ∧ DecidesFor c (identity ctx opts)) ↔
        ctx ≠ .other ∨ opts.uid = opts.gid ∨ opts.uid = 0) := by
  rw [mdFromContext_of_delivered hd]
  simp only [some.injEq, exists_eq_left']
  cases ctx with
  | fuse caller =>
    have hne : Context.fuse caller ≠ .other := Context.noConfusion
    exact ⟨iff_of_true rfl (.inl hne), iff_of_true (decidesFor_self caller) (.inl hne)⟩
  | other =>
    have hself : ¬ Context.other ≠ .other := fun h => h rfl
    refine ⟨?_, ?_⟩
    · rw [or_iff_right hself, grpcCaller, identity, Caller.mk.injEq]
      exact and_iff_right rfl
    · rw [or_iff_right hself, grpcCaller, identity]
      constructor
      · intro h
        by_contra hcon
        rw [not_or] at hcon
        exact not_decidesFor hcon.2 hcon.1 h
      · rintro (heq | h0)
        · rw [← heq]
          exact decidesFor_self _
        · -- the superuser is permitted whatever the group
          intro attr mask
          rw [accessDenied_eq_false_iff]
          exact iff_of_true (.inl h0) (.inl h0)

theorem identity_recovered_sample :
    mdFromContext [("user-agent", [ofText "grpc-go"]), ("gid", [ofText "100"]),
        ("uid", [ofText "1000"])] = some { uid := 1000, gid := 100 } := by
  have hd : Delivered (newGrpcContext (.fuse { uid := 1000, gid := 100 }) { uid := 0, gid := 0 })
      [("user-agent", [ofText "grpc-go"]), ("gid", [ofText "100"]),
        ("uid", [ofText "1000"])] := by
    refine ⟨by decide, ?_⟩
    intro kv hkv
    rw [newGrpcContext, mem_pair] at hkv
    rcases hkv with rfl | rfl
    · decide
    · decide
  exact (identity_recovered_iff hd).1.mpr (.inl Context.noConfusion)

/-- A mount configured with user 1000 and group 100 acts as group 1000: a member of group 100
may read the file, and the server refuses. -/
theorem identity_group_lost :
    mdFromContext (newGrpcContext .other { uid := 1000, gid := 100 }) =
        some { uid := 1000, gid := 1000 } ∧
      identity .other { uid := 1000, gid := 100 } = { uid := 1000, gid := 100 } ∧
      accessDenied { uid := 1000, gid := 1000 } (groupReadable 100) 4 = true ∧
      Permitted { uid := 1000, gid := 100 } (groupReadable 100) 4 := by
  refine ⟨by decide, rfl, by decide, ?_⟩
  rw [← accessDenied_eq_false_iff]
  decide

end HugoFS.Mount
