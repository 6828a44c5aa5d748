import Cyberway.ChaindbObject

/-!
# Storage charges of chaindb writes

A `storage_payer_info` names whom a write is for (`owner`), who pays
(`payer`), and where `add_usage` reports the usage: to the apply context of
an action, to a transaction context, or to the resource manager.
`chaindb_controller_impl` charges an insert the size of the new row, an
update the difference of the sizes and a remove minus the size of the row,
and writes the payer of the charge into the row. An update whose size does
not grow pays with the owner, and an owner or payer left empty is taken
from the stored row.

So an update that names another payer moves the whole row to that payer
while charging it only the difference of the sizes: the old payer keeps the
charge for a row it no longer pays for, and the new payer is refunded, when
the row is removed, what it never paid.
-/

namespace Cyberway.ChaindbStorage

open ChaindbObject

/-- Which of the three contexts of a `storage_payer_info` is set. -/
inductive UsageTarget
  | applyContext
  | transactionContext
  | resourceManager
  | nobody
  deriving DecidableEq, Repr

/-- `storage_payer_info`. -/
structure StoragePayerInfo where
  /-- The context `add_usage` reports to. -/
  target : UsageTarget := .nobody
  /-- The account the row is for. -/
  owner : AccountName := 0
  /-- The account that pays. -/
  payer : AccountName := 0
  /-- The slot of a resource manager charge. -/
  timeSlot : UInt32 := 0
  /-- The size of the row, a C++ `int`. -/
  size : Int32 := 0
  /-- The usage to report, an `int64_t`. -/
  delta : ℤ := 0
  /-- Whether the row is kept in RAM. -/
  inRam : Bool := true
  deriving DecidableEq, Repr

/-- A usage that `add_usage` reports. -/
structure Usage where
  /-- The context it is reported to. -/
  target : UsageTarget
  /-- The account the row is for. -/
  owner : AccountName
  /-- The account charged. -/
  payer : AccountName
  /-- The amount, negative for a refund. -/
  delta : ℤ
  deriving DecidableEq, Repr

namespace StoragePayerInfo

/-- The usage this info would report. -/
def usage (s : StoragePayerInfo) : Usage := ⟨s.target,s.owner,s.payer,s.delta⟩

/-- `add_usage`: nothing for an empty payer or a zero delta; the resource
manager takes only refunds, or charges at genesis (slot 0), and throws
otherwise. -/
def addUsage (s : StoragePayerInfo) : Option (List Usage) :=
  if s.payer=0 ∨ s.delta=0 then some []
  else
    match s.target with
    | .applyContext => some [s.usage]
    | .transactionContext => some [s.usage]
    | .resourceManager => if 0 > s.delta ∨ s.timeSlot=0 then some [s.usage] else none
    | .nobody => some []

/-- `get_payer_from`: an empty owner or payer is taken from the row. -/
def getPayerFrom (s : StoragePayerInfo) (obj : ObjectValue) : StoragePayerInfo :=
  let s := if s.owner=0 then {s with owner := obj.service.payer} else s
  if s.payer=0 then {s with payer := obj.service.payer} else s

/-- `set_payer_in`. -/
def setPayerIn (s : StoragePayerInfo) (obj : ObjectValue) : ObjectValue :=
  {obj with service := {obj.service with payer := s.payer,size := s.size,inRam := s.inRam}}

end StoragePayerInfo

open StoragePayerInfo

/-- `undo_.revision()` and the `start_revision` below which nothing is
charged. -/
structure Charger where
  /-- The revision of the undo stack. -/
  revision : Revision
  /-- The revision the controller started at. -/
  startRevision : Revision

/-- `add_usage` unless the write happens at genesis. -/
def Charger.charge (c : Charger) (s : StoragePayerInfo) : Option (List Usage) :=
  if c.revision > c.startRevision then s.addUsage else some []

/-- The row as the controller hands it to the undo stack. -/
def stamp (c : Charger) (obj : ObjectValue) : ObjectValue :=
  {obj with service := {obj.service with revision := c.revision}}

/-- `chaindb_controller_impl::insert(table, charge, obj)` after the object
checks, with `size` the `calc_storage_usage` of the value: the row stored,
the usages reported and the returned delta. -/
def insertCharge (c : Charger) (size : Int32) (charge : StoragePayerInfo) (obj : ObjectValue) :
    Option (ObjectValue × List Usage × ℤ) := do
  let charge := {charge with size := size,inRam := true,delta := charge.delta+size.toInt}
  let obj := stamp c (charge.setPayerIn obj)
  let usages ← c.charge charge
  pure (obj,usages,charge.delta)

/-- The payer info an update charges with: the size difference, the owner
when the row does not grow, empty names taken from the stored row. -/
def updatePayer (size : Int32) (charge : StoragePayerInfo) (origObj : ObjectValue) : StoragePayerInfo :=
  let charge := {charge with size := size,delta := charge.delta+(size.toInt-origObj.service.size.toInt)}
  let charge := if charge.delta ≤ 0 then {charge with payer := charge.owner} else charge
  charge.getPayerFrom origObj

/-- `chaindb_controller_impl::update(table, charge, obj, orig_obj)`. -/
def updateCharge (c : Charger) (size : Int32) (charge : StoragePayerInfo) (obj origObj : ObjectValue) :
    Option (ObjectValue × List Usage × ℤ) := do
  let charge := updatePayer size charge origObj
  let usages ← c.charge charge
  pure (stamp c (charge.setPayerIn obj),usages,charge.delta)

/-- The payer info a remove refunds with. -/
def removePayer (refund : StoragePayerInfo) (origObj : ObjectValue) : StoragePayerInfo :=
  let refund := refund.getPayerFrom origObj
  {refund with size := origObj.service.size,delta := -origObj.service.size.toInt}

/-- `chaindb_controller_impl::remove(table, refund, orig_obj)`: the usages
reported and the returned delta. -/
def removeCharge (c : Charger) (refund : StoragePayerInfo) (origObj : ObjectValue) :
    Option (List Usage × ℤ) := do
  let refund := removePayer refund origObj
  let usages ← c.charge refund
  pure (usages,refund.delta)

/-! ## The rows of the controller -/

/-- The key of a row: its table and primary key. -/
abbrev RowKey := TableKey × PrimaryKey

/-- What the controller keeps: the rows as it reads them, the revisions
and the usages reported so far, oldest first. -/
structure Controller where
  /-- The charging revisions. -/
  charger : Charger
  /-- The current row of each key. -/
  rows : RowKey → Option ObjectValue
  /-- The usages `add_usage` reported. -/
  usages : List Usage

namespace Controller

/-- `insert` from contracts: `to_object_value` locates the value in the
table. The controller does not look the key up. -/
def insert (st : Controller) (table : TableKey) (charge : StoragePayerInfo) (pk : PrimaryKey)
    (value : Variant) (size : Int32) : Option (Controller × ℤ) := do
  let (obj,usages,delta) ← insertCharge st.charger size charge {service := table.toService pk,value := value}
  pure ({st with rows := Function.update st.rows (table,pk) (some obj),usages := st.usages++usages},delta)

/-- `update` from contracts: the stored row must exist; the new row keeps
its RAM state. -/
def update (st : Controller) (table : TableKey) (charge : StoragePayerInfo) (pk : PrimaryKey)
    (value : Variant) (size : Int32) : Option (Controller × ℤ) := do
  let orig ← st.rows (table,pk)
  let charge := {charge with inRam := orig.service.inRam}
  let (obj,usages,delta) ← updateCharge st.charger size charge {service := table.toService pk,value := value} orig
  pure ({st with rows := Function.update st.rows (table,pk) (some obj),usages := st.usages++usages},delta)

/-- `remove` from contracts: the stored row must exist. -/
def remove (st : Controller) (table : TableKey) (refund : StoragePayerInfo) (pk : PrimaryKey) :
    Option (Controller × ℤ) := do
  let orig ← st.rows (table,pk)
  let (usages,delta) ← removeCharge st.charger refund orig
  pure ({st with rows := Function.update st.rows (table,pk) none,usages := st.usages++usages},delta)

end Controller

/-- A write of a contract to the controller. -/
inductive Write
  | insert (table : TableKey) (charge : StoragePayerInfo) (pk : PrimaryKey) (value : Variant) (size : Int32)
  | update (table : TableKey) (charge : StoragePayerInfo) (pk : PrimaryKey) (value : Variant) (size : Int32)
  | remove (table : TableKey) (refund : StoragePayerInfo) (pk : PrimaryKey)

/-- The row a write is for. -/
def Write.key : Write → RowKey
  | .insert t _ pk _ _ => (t,pk)
  | .update t _ pk _ _ => (t,pk)
  | .remove t _ pk => (t,pk)

/-- The payer info a write is made with. -/
def Write.info : Write → StoragePayerInfo
  | .insert _ c _ _ _ => c
  | .update _ c _ _ _ => c
  | .remove _ r _ => r

namespace Controller

/-- One write; its returned delta is dropped. -/
def write (st : Controller) : Write → Option Controller
  | .insert t c pk v sz => (st.insert t c pk v sz).map Prod.fst
  | .update t c pk v sz => (st.update t c pk v sz).map Prod.fst
  | .remove t r pk => (st.remove t r pk).map Prod.fst

/-- A sequence of writes, each one successful. -/
def run (st : Controller) : List Write → Option Controller
  | [] => some st
  | w::ws => (st.write w).bind fun st => st.run ws

/-- The account a write charges: the payer of an insert, or the payer the
controller resolves for an update or a remove against the stored row. -/
def chargedPayer (st : Controller) : Write → AccountName
  | .insert _ c _ _ _ => c.payer
  | .update t c pk _ sz =>
    match st.rows (t,pk) with
    | some orig => (updatePayer sz {c with inRam := orig.service.inRam} orig).payer
    | none => 0
  | .remove t r pk =>
    match st.rows (t,pk) with
    | some orig => (removePayer r orig).payer
    | none => 0

end Controller

/-- The total of the usages charged to `a`. -/
def chargedTo (us : List Usage) (a : AccountName) : ℤ := ((us.filter fun u => u.payer=a).map (·.delta)).sum

/-- The total of all usages. -/
def totalCharged (us : List Usage) : ℤ := (us.map (·.delta)).sum

/-- The size of a row, `0` for no row. -/
def rowSize : Option ObjectValue → ℤ
  | some obj => obj.service.size.toInt
  | none => 0

/-- The size a row holds for `a`: its size if `a` pays for it. -/
def heldBy (row : Option ObjectValue) (a : AccountName) : ℤ :=
  match row with
  | some obj => if obj.service.payer=a then obj.service.size.toInt else 0
  | none => 0

/-- What the rows at the keys `ks` hold for `a`. -/
def held (st : Controller) (ks : Finset RowKey) (a : AccountName) : ℤ := ∑ k ∈ ks, heldBy (st.rows k) a

/-- The size of all rows at the keys `ks`. -/
def heldTotal (st : Controller) (ks : Finset RowKey) : ℤ := ∑ k ∈ ks, rowSize (st.rows k)

/-! ## What one write charges -/

namespace StoragePayerInfo

/-- `get_payer_from` fills the empty owner and payer and keeps the rest. -/
theorem getPayerFrom_eq (s : StoragePayerInfo) (obj : ObjectValue) :
    s.getPayerFrom obj=
      {s with owner := if s.owner=0 then obj.service.payer else s.owner,payer := if s.payer=0 then obj.service.payer else s.payer} := by
  unfold getPayerFrom
  dsimp only
  split_ifs <;> rfl

/-- The info reports to some context. -/
def Reports (s : StoragePayerInfo) : Prop := s.target≠.nobody

instance (s : StoragePayerInfo) : Decidable s.Reports := inferInstanceAs (Decidable (_≠_))

/-- What `add_usage` reports when the info reports to some context. -/
def reported (s : StoragePayerInfo) : List Usage := if s.payer=0 ∨ s.delta=0 then [] else [s.usage]

/-- An info that reports to a context reports its usage, unless the payer
is empty or the delta zero; the resource manager may refuse it instead. -/
theorem addUsage_eq_reported {s : StoragePayerInfo} {us : List Usage} (hr : s.Reports)
    (h : s.addUsage=some us) : us=s.reported := by
  unfold addUsage at h
  unfold reported
  by_cases hz : s.payer=0 ∨ s.delta=0
  · rw [if_pos hz] at h ⊢
    exact (Option.some.inj h).symm
  · rw [if_neg hz] at h ⊢
    -- each context but `nobody` reports the usage itself
    cases ht : s.target <;> simp only [ht] at h
    · exact (Option.some.inj h).symm
    · exact (Option.some.inj h).symm
    · split_ifs at h
      exact (Option.some.inj h).symm
    · exact absurd ht hr

end StoragePayerInfo

/-- While the revision is past the start, a charge reports what `add_usage` does. -/
theorem Charger.charge_eq_reported {c : Charger} {s : StoragePayerInfo} {us : List Usage}
    (hc : c.startRevision < c.revision) (hr : s.Reports) (h : c.charge s=some us) : us=s.reported := by
  unfold Charger.charge at h
  rw [if_pos hc] at h
  exact addUsage_eq_reported hr h

@[simp] theorem chargedTo_append (us us' : List Usage) (a : AccountName) :
    chargedTo (us++us') a=chargedTo us a+chargedTo us' a := by
  simp [chargedTo]

@[simp] theorem totalCharged_append (us us' : List Usage) :
    totalCharged (us++us')=totalCharged us+totalCharged us' := by
  simp [totalCharged]

/-- A named payer is charged the whole delta, nobody else anything. -/
theorem chargedTo_reported {s : StoragePayerInfo} (hp : s.payer≠0) (a : AccountName) :
    chargedTo s.reported a=if s.payer=a then s.delta else 0 := by
  by_cases hd : s.delta=0
  · simp [reported, chargedTo, hd]
  · have hl : s.reported=[s.usage] := if_neg (by tauto)
    rw [hl]
    by_cases ha : s.payer=a <;> simp [chargedTo, usage, ha]

theorem totalCharged_reported {s : StoragePayerInfo} (hp : s.payer≠0) : totalCharged s.reported=s.delta := by
  unfold reported
  by_cases hd : s.delta=0 <;> simp [totalCharged, usage, hp, hd]

/-- The info an update charges with, the owner's branch made explicit. -/
theorem updatePayer_eq (size : Int32) (c : StoragePayerInfo) (orig : ObjectValue) :
    updatePayer size c orig=
      (if c.delta+(size.toInt-orig.service.size.toInt) ≤ 0 then
        {c with size := size,delta := c.delta+(size.toInt-orig.service.size.toInt),payer := c.owner}
      else {c with size := size,delta := c.delta+(size.toInt-orig.service.size.toInt)}).getPayerFrom orig :=
  rfl

/-- The payer an update resolves: the owner when the row does not grow,
an empty name taken from the stored row. -/
theorem updatePayer_payer (size : Int32) (c : StoragePayerInfo) (orig : ObjectValue) :
    (updatePayer size c orig).payer=
      let p := if c.delta+(size.toInt-orig.service.size.toInt) ≤ 0 then c.owner else c.payer
      if p=0 then orig.service.payer else p := by
  rw [updatePayer_eq]
  by_cases hd : c.delta+(size.toInt-orig.service.size.toInt) ≤ 0 <;> simp [hd, getPayerFrom_eq]

@[simp] theorem updatePayer_delta (size : Int32) (c : StoragePayerInfo) (orig : ObjectValue) :
    (updatePayer size c orig).delta=c.delta+(size.toInt-orig.service.size.toInt) := by
  rw [updatePayer_eq]
  split_ifs <;> simp [getPayerFrom_eq]

@[simp] theorem updatePayer_size (size : Int32) (c : StoragePayerInfo) (orig : ObjectValue) :
    (updatePayer size c orig).size=size := by
  rw [updatePayer_eq]
  split_ifs <;> simp [getPayerFrom_eq]

@[simp] theorem updatePayer_target (size : Int32) (c : StoragePayerInfo) (orig : ObjectValue) :
    (updatePayer size c orig).target=c.target := by
  rw [updatePayer_eq]
  split_ifs <;> simp [getPayerFrom_eq]

/-- An update of a row with a named payer charges a named payer. -/
theorem updatePayer_payer_ne (size : Int32) (c : StoragePayerInfo) {orig : ObjectValue}
    (h : orig.service.payer≠0) : (updatePayer size c orig).payer≠0 := by
  rw [updatePayer_payer]
  dsimp only
  split_ifs <;> assumption

@[simp] theorem removePayer_payer (r : StoragePayerInfo) (orig : ObjectValue) :
    (removePayer r orig).payer=if r.payer=0 then orig.service.payer else r.payer := by
  simp [removePayer, getPayerFrom_eq]

@[simp] theorem removePayer_delta (r : StoragePayerInfo) (orig : ObjectValue) :
    (removePayer r orig).delta=-orig.service.size.toInt := rfl

@[simp] theorem removePayer_target (r : StoragePayerInfo) (orig : ObjectValue) :
    (removePayer r orig).target=r.target := by
  simp [removePayer, getPayerFrom_eq]

/-! ## Accounting over runs -/

/-- Replacing one summand of a finite sum changes the sum by the difference. -/
theorem sum_update_eq {ι M : Type} [DecidableEq ι] [AddCommGroup M] {ks : Finset ι} {k : ι} (hk : k ∈ ks)
    (f : ι → M) (v : M) : ∑ i ∈ ks, Function.update f k v i=∑ i ∈ ks, f i+(v-f k) := by
  rw [Finset.sum_update_of_mem hk, Finset.sum_eq_add_sum_sdiff_singleton_of_mem hk]
  abel

/-- What one write does: the row at `k` becomes its new value, nothing
else changes, and the info `s` reports its usages to a named payer, who
pays for the new row; `s` charges the change of the row's size. -/
structure WriteEffect (st st' : Controller) (k : RowKey) (s : StoragePayerInfo) : Prop where
  charger : st'.charger=st.charger
  rows : st'.rows=Function.update st.rows k (st'.rows k)
  usages : st'.usages=st.usages++s.reported
  delta : s.delta=rowSize (st'.rows k)-rowSize (st.rows k)
  payer_ne : s.payer≠0
  new_payer : ∀ obj, st'.rows k=some obj → obj.service.payer=s.payer

/-- The rows lie at the keys `ks`, each with a named payer. -/
structure Supported (ks : Finset RowKey) (st : Controller) : Prop where
  outside : ∀ k, k ∉ ks → st.rows k=none
  payer_ne : ∀ k obj, st.rows k=some obj → obj.service.payer≠0

/-- Every account is charged the size of the rows it pays for. -/
def Balanced (ks : Finset RowKey) (st : Controller) : Prop := ∀ a, chargedTo st.usages a=held st ks a

/-- All charges add up to the size of all rows. -/
def TotalBalanced (ks : Finset RowKey) (st : Controller) : Prop := totalCharged st.usages=heldTotal st ks

/-- The writes the accounting is about: made with an info that reports to
some context and carries no delta of its own, an insert at a free key with
a named payer. -/
def Fair (ks : Finset RowKey) (st : Controller) (w : Write) : Prop :=
  w.key ∈ ks ∧ w.info.Reports ∧ w.info.delta=0 ∧
    match w with
    | .insert t c pk _ _ => st.rows (t,pk)=none ∧ c.payer≠0
    | _ => True

/-- The write charges the payer of the row it changes. -/
def KeepsPayer (st : Controller) (w : Write) : Prop :=
  ∀ orig, st.rows w.key=some orig → st.chargedPayer w=orig.service.payer

section Effect

variable {ks : Finset RowKey} {st st' : Controller} {k : RowKey} {s : StoragePayerInfo}

theorem Supported.of_effect (hs : Supported ks st) (hk : k ∈ ks) (he : WriteEffect st st' k s) : Supported ks st' where
  outside k' hk' := by
    rw [he.rows, Function.update_of_ne (by rintro rfl; exact hk' hk)]
    exact hs.outside k' hk'
  payer_ne k' obj h := by
    by_cases hkk : k'=k
    · subst hkk
      rw [he.new_payer obj h]
      exact he.payer_ne
    · rw [he.rows, Function.update_of_ne hkk] at h
      exact hs.payer_ne k' obj h

/-- A sum over the rows changes by what the written row changes. -/
theorem WriteEffect.sum_rows (he : WriteEffect st st' k s) (hk : k ∈ ks) (F : Option ObjectValue → ℤ) :
    ∑ k' ∈ ks, F (st'.rows k')=∑ k' ∈ ks, F (st.rows k')+(F (st'.rows k)-F (st.rows k)) := by
  have hF : ∀ k', F (st'.rows k')=Function.update (fun k' => F (st.rows k')) k (F (st'.rows k)) k' := by
    intro k'
    by_cases hkk : k'=k
    · subst hkk
      simp
    · rw [congrFun he.rows k', Function.update_of_ne hkk, Function.update_of_ne hkk]
  rw [Finset.sum_congr rfl fun k' _ => hF k']
  exact sum_update_eq hk _ _

theorem TotalBalanced.of_effect (hb : TotalBalanced ks st) (hk : k ∈ ks) (he : WriteEffect st st' k s) :
    TotalBalanced ks st' := by
  unfold TotalBalanced heldTotal at *
  rw [he.usages, totalCharged_append, totalCharged_reported he.payer_ne, he.delta, hb, he.sum_rows hk rowSize]

/-- The size a row holds for an account changes with the row, for the payer
of both the old and the new row. -/
theorem heldBy_sub {old new : Option ObjectValue} {p : AccountName}
    (hold : ∀ obj, old=some obj → obj.service.payer=p) (hnew : ∀ obj, new=some obj → obj.service.payer=p)
    (a : AccountName) : heldBy new a-heldBy old a=if p=a then rowSize new-rowSize old else 0 := by
  cases old with
  | none =>
    cases new with
    | none => simp [heldBy, rowSize]
    | some n => simp [heldBy, rowSize, hnew n rfl]
  | some o =>
    cases new with
    | none => by_cases ha : p=a <;> simp [heldBy, rowSize, hold o rfl, ha]
    | some n => by_cases ha : p=a <;> simp [heldBy, rowSize, hold o rfl, hnew n rfl, ha]

theorem Balanced.of_effect (hb : Balanced ks st) (hk : k ∈ ks) (he : WriteEffect st st' k s)
    (hkeep : ∀ obj, st.rows k=some obj → obj.service.payer=s.payer) : Balanced ks st' := by
  intro a
  unfold held
  rw [he.usages, chargedTo_append, chargedTo_reported he.payer_ne, hb a, he.sum_rows hk (heldBy · a),
    heldBy_sub hkeep he.new_payer, he.delta]
  rfl

end Effect

namespace Controller

section Writes

variable {st st' : Controller} {t : TableKey} {pk : PrimaryKey} {v : Variant} {sz : Int32} {d : ℤ}

theorem insert_effect {c : StoragePayerInfo} (hc : st.charger.startRevision < st.charger.revision) (hr : c.Reports)
    (hd : c.delta=0) (hfree : st.rows (t,pk)=none) (hp : c.payer≠0) (h : st.insert t c pk v sz=some (st',d)) :
    WriteEffect st st' (t,pk) {c with size := sz,inRam := true,delta := c.delta+sz.toInt} := by
  simp only [insert, insertCharge, Option.bind_eq_bind, Option.bind_eq_some_iff, Option.pure_def,
    Option.some.injEq] at h
  obtain ⟨_,⟨us,hus,rfl⟩,hst⟩ := h
  obtain ⟨rfl,-⟩ := Prod.mk.inj hst
  have hrep := Charger.charge_eq_reported hc (by exact hr) hus
  refine ⟨rfl,by simp,by rw [hrep],?_,hp,?_⟩
  · simp [rowSize, hfree, hd, stamp, setPayerIn]
  · intro obj hobj
    simp only [Function.update_self, Option.some.injEq] at hobj
    subst hobj
    rfl

theorem update_effect {c : StoragePayerInfo} (hc : st.charger.startRevision < st.charger.revision) (hr : c.Reports)
    (hd : c.delta=0) (hs : ∀ obj, st.rows (t,pk)=some obj → obj.service.payer≠0)
    (h : st.update t c pk v sz=some (st',d)) :
    ∃ orig, st.rows (t,pk)=some orig ∧
      WriteEffect st st' (t,pk) (updatePayer sz {c with inRam := orig.service.inRam} orig) := by
  simp only [update, updateCharge, Option.bind_eq_bind, Option.bind_eq_some_iff, Option.pure_def,
    Option.some.injEq] at h
  obtain ⟨orig,horig,_,⟨us,hus,rfl⟩,hst⟩ := h
  obtain ⟨rfl,-⟩ := Prod.mk.inj hst
  have hrep := Charger.charge_eq_reported hc (by simpa [Reports] using hr) hus
  refine ⟨orig,horig,rfl,by simp,by rw [hrep],?_,updatePayer_payer_ne _ _ (hs orig horig),?_⟩
  · simp [rowSize, horig, hd, stamp, setPayerIn]
  · intro obj hobj
    simp only [Function.update_self, Option.some.injEq] at hobj
    subst hobj
    rfl

theorem remove_effect {r : StoragePayerInfo} (hc : st.charger.startRevision < st.charger.revision) (hr : r.Reports)
    (hs : ∀ obj, st.rows (t,pk)=some obj → obj.service.payer≠0) (h : st.remove t r pk=some (st',d)) :
    ∃ orig, st.rows (t,pk)=some orig ∧ WriteEffect st st' (t,pk) (removePayer r orig) := by
  simp only [remove, removeCharge, Option.bind_eq_bind, Option.bind_eq_some_iff, Option.pure_def,
    Option.some.injEq] at h
  obtain ⟨orig,horig,_,⟨us,hus,rfl⟩,hst⟩ := h
  obtain ⟨rfl,-⟩ := Prod.mk.inj hst
  have hrep := Charger.charge_eq_reported hc (by simpa [Reports] using hr) hus
  have hp : (removePayer r orig).payer≠0 := by
    rw [removePayer_payer]
    split_ifs
    · exact hs orig horig
    · assumption
  refine ⟨orig,horig,rfl,by simp,by rw [hrep],?_,hp,?_⟩
  · simp [rowSize, horig]
  · simp

/-- A fair write changes the row at its key and charges the account it
resolves as the payer; that account is named when every row has a named payer. -/
theorem write_effect {ks : Finset RowKey} {w : Write} (hc : st.charger.startRevision < st.charger.revision)
    (hs : Supported ks st) (hf : Fair ks st w) (h : st.write w=some st') :
    ∃ s, WriteEffect st st' w.key s ∧ s.payer=st.chargedPayer w := by
  obtain ⟨-,hr,hd,hins⟩ := hf
  cases w with
  | insert t c pk v sz =>
    obtain ⟨⟨st₁,d⟩,h₁,rfl⟩ := Option.map_eq_some_iff.mp h
    exact ⟨_,insert_effect hc hr hd hins.1 hins.2 h₁,rfl⟩
  | update t c pk v sz =>
    obtain ⟨⟨st₁,d⟩,h₁,rfl⟩ := Option.map_eq_some_iff.mp h
    obtain ⟨orig,horig,he⟩ := update_effect hc hr hd (hs.payer_ne _) h₁
    refine ⟨_,he,?_⟩
    simp only [chargedPayer, horig, Write.info]
  | remove t r pk =>
    obtain ⟨⟨st₁,d⟩,h₁,rfl⟩ := Option.map_eq_some_iff.mp h
    obtain ⟨orig,horig,he⟩ := remove_effect hc hr (hs.payer_ne _) h₁
    refine ⟨_,he,?_⟩
    simp only [chargedPayer, horig, Write.info]

end Writes

/-- Every write of a run, at the state it meets, satisfies `P`. -/
def EachWrite (P : Controller → Write → Prop) : Controller → List Write → Prop
  | _,[] => True
  | st,w::ws => P st w ∧ ∀ st', st.write w=some st' → EachWrite P st' ws

/-- What every write keeps holds after a run. -/
theorem run_invariant {P : Controller → Write → Prop} {I : Controller → Prop}
    (hstep : ∀ st w st', I st → P st w → st.write w=some st' → I st') :
    ∀ {ws : List Write} {st st' : Controller}, I st → EachWrite P st ws → st.run ws=some st' → I st'
  | [],_,_,hi,_,h => by
    cases h
    exact hi
  | _::_,st,_,hi,⟨hp,hrest⟩,h => by
    obtain ⟨st₁,h₁,h₂⟩ := Option.bind_eq_some_iff.mp h
    exact run_invariant hstep (hstep st _ st₁ hi hp h₁) (hrest st₁ h₁) h₂

/-- Over any run of fair writes, while the revision is past the start, all
charges add up to the size of all rows. -/
theorem run_totalBalanced {ks : Finset RowKey} {ws : List Write} {st st' : Controller}
    (hc : st.charger.startRevision < st.charger.revision) (hs : Supported ks st) (hb : TotalBalanced ks st)
    (hf : EachWrite (Fair ks) st ws) (h : st.run ws=some st') : Supported ks st' ∧ TotalBalanced ks st' := by
  -- the charger never changes, so the revision stays past the start
  have hrun := run_invariant (P := Fair ks)
    (I := fun st => st.charger.startRevision < st.charger.revision ∧ Supported ks st ∧ TotalBalanced ks st)
    (fun st w st' ⟨hc,hs,hb⟩ hf h => by
      obtain ⟨s,he,-⟩ := write_effect hc hs hf h
      exact ⟨he.charger ▸ hc,hs.of_effect hf.1 he,hb.of_effect hf.1 he⟩)
    ⟨hc,hs,hb⟩ hf h
  exact hrun.2

/-- Over any run of fair writes that each charge the payer of the row they
change, while the revision is past the start, every account is charged the
size of the rows it pays for. -/
theorem run_balanced {ks : Finset RowKey} {ws : List Write} {st st' : Controller}
    (hc : st.charger.startRevision < st.charger.revision) (hs : Supported ks st) (hb : Balanced ks st)
    (hf : EachWrite (fun st w => Fair ks st w ∧ KeepsPayer st w) st ws) (h : st.run ws=some st') :
    Supported ks st' ∧ Balanced ks st' := by
  have hrun := run_invariant (P := fun st w => Fair ks st w ∧ KeepsPayer st w)
    (I := fun st => st.charger.startRevision < st.charger.revision ∧ Supported ks st ∧ Balanced ks st)
    (fun st w st' ⟨hc,hs,hb⟩ ⟨hf,hkeep⟩ h => by
      obtain ⟨s,he,hp⟩ := write_effect hc hs hf h
      refine ⟨he.charger ▸ hc,hs.of_effect hf.1 he,hb.of_effect hf.1 he fun obj hobj => ?_⟩
      rw [hp, hkeep obj hobj])
    ⟨hc,hs,hb⟩ hf h
  exact hrun.2

/-- A controller with no rows and no usages yet. -/
def empty (c : Charger) : Controller := ⟨c,fun _ => none,[]⟩

theorem empty_supported (c : Charger) (ks : Finset RowKey) : Supported ks (empty c) :=
  ⟨fun _ _ => rfl,fun _ _ h => nomatch h⟩

theorem empty_balanced (c : Charger) (ks : Finset RowKey) : Balanced ks (empty c) := by
  intro a
  simp [empty, chargedTo, held, heldBy]

theorem empty_totalBalanced (c : Charger) (ks : Finset RowKey) : TotalBalanced ks (empty c) := by
  simp [TotalBalanced, totalCharged, heldTotal, empty, rowSize]

/-- From no rows, over any run of fair writes that each charge the payer of
the row they change, while the revision is past the start, every account is
charged the size of the rows it pays for. -/
theorem charged_eq_held_of_keeps_payer {c : Charger} {ks : Finset RowKey} {ws : List Write} {st : Controller}
    (hc : c.startRevision < c.revision) (hf : EachWrite (fun st w => Fair ks st w ∧ KeepsPayer st w) (empty c) ws)
    (h : (empty c).run ws=some st) (a : AccountName) : chargedTo st.usages a=held st ks a :=
  (run_balanced hc (empty_supported c ks) (empty_balanced c ks) hf h).2 a

end Controller

/-! ## Passing a domain -/

/-- Two accounts. -/
def alice : AccountName := 1

/-- Two accounts. -/
def bob : AccountName := 2

/-- The table of domains, and the key of one domain in it. -/
def domainKey : RowKey := ((5,6,5),1)

/-- `newdomain` by `alice`: the domain is inserted with
`get_storage_payer(alice)`, 10 bytes. -/
def newdomainWrite : Write := .insert domainKey.1 {target := .applyContext,owner := alice,payer := alice} domainKey.2 .null 10

/-- `passdomain` to `bob`: the same domain, of the same size, is updated
with `get_storage_payer(bob)`. -/
def passdomainWrite : Write := .update domainKey.1 {target := .applyContext,owner := bob,payer := bob} domainKey.2 .null 10

theorem newdomainWrite_fair : Fair {domainKey} (Controller.empty ⟨2,1⟩) newdomainWrite :=
  ⟨by simp [newdomainWrite, Write.key],by decide,rfl,rfl,by decide⟩

theorem domainWrites_fair :
    Controller.EachWrite (Fair {domainKey}) (Controller.empty ⟨2,1⟩) [newdomainWrite,passdomainWrite] :=
  ⟨newdomainWrite_fair,fun _ _ => ⟨⟨by simp [passdomainWrite, Write.key],by decide,rfl,trivial⟩,fun _ _ => trivial⟩⟩

/-- Both writes are fair, but after them `alice` is still charged for the
domain while `bob` pays for it without having been charged. -/
theorem passdomain_moves_row_without_charge :
    Controller.EachWrite (Fair {domainKey}) (Controller.empty ⟨2,1⟩) [newdomainWrite,passdomainWrite] ∧
      ∃ st, (Controller.empty ⟨2,1⟩).run [newdomainWrite,passdomainWrite]=some st ∧
        chargedTo st.usages alice=10 ∧ held st {domainKey} alice=0 ∧
        chargedTo st.usages bob=0 ∧ held st {domainKey} bob=10 := by
  refine ⟨domainWrites_fair,_,rfl,?_⟩
  decide

/-- Over the same two writes all charges still add up to the size of the
rows: the charge sits on the wrong account, it is not lost. -/
theorem passdomain_total_balanced :
    ∃ st,(Controller.empty ⟨2,1⟩).run [newdomainWrite,passdomainWrite]=some st ∧
      Supported {domainKey} st ∧ TotalBalanced {domainKey} st :=
  ⟨_,rfl,Controller.run_totalBalanced (by decide) (Controller.empty_supported _ _)
    (Controller.empty_totalBalanced _ _) domainWrites_fair rfl⟩

/-- `alice` grows the domain to 20 bytes, still as its payer. -/
def growdomainWrite : Write := .update domainKey.1 {target := .applyContext,owner := alice,payer := alice} domainKey.2 .null 20

/-- Writes that charge the stored row's payer leave `alice` charged for
what the account holds. -/
theorem growdomain_charged_as_held :
    ∃ st,(Controller.empty ⟨2,1⟩).run [newdomainWrite,growdomainWrite]=some st ∧
      chargedTo st.usages alice=held st {domainKey} alice ∧ held st {domainKey} alice=20 := by
  have hf : Controller.EachWrite (fun st w => Fair {domainKey} st w ∧ KeepsPayer st w) (Controller.empty ⟨2,1⟩)
      [newdomainWrite,growdomainWrite] := by
    refine ⟨⟨newdomainWrite_fair,fun _ h => nomatch h⟩,fun st h => ?_⟩
    cases h
    refine ⟨⟨⟨by simp [growdomainWrite, Write.key],by decide,rfl,trivial⟩,fun orig horig => ?_⟩,fun _ _ => trivial⟩
    cases horig
    rfl
  exact ⟨_,rfl,Controller.charged_eq_held_of_keeps_payer (by decide) hf rfl alice,by decide⟩

end Cyberway.ChaindbStorage
