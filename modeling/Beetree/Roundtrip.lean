import Beetree.Budget
import Beetree.Slots

/-! What a commit writes is the tree in memory, node for node.

A commit follows dirty nodes down from the root and takes the record of the first clean one it
meets. So it writes everything as long as nothing below a clean node is dirty. Operations keep it
so, and so does a drain that changes nothing below a clean node it leaves alone. -/
namespace Beetree

section Closed
variable {h : ℕ} {P : (h : ℕ) → VTree h → Prop} {t : Live h}

def Tree.cleaned {h : ℕ} (T : Flagged h) : Flagged h := T.relabel fun _ _ => false

@[simp] lemma Tree.cleaned_clean (d : VTree h) : d.clean.cleaned = d.clean :=
    Tree.relabel_relabel _ _ d

@[simp] lemma Tree.cleaned_leaf (a : Bool) (es : Entries) :
    (Tree.leaf a es : Flagged 0).cleaned = Tree.leaf false es := rfl

@[simp] lemma Tree.cleaned_node (a : Bool) (ps : List Key) (cs : List (Flagged h)) (b : Buffer) :
    (Tree.node a ps cs b : Flagged (h + 1)).cleaned = Tree.node false ps (cs.map Tree.cleaned) b :=
    rfl

lemma Live.clean_disk (hc : Live.Closed t) (hS : Live.Sound P t) (hd : t.dirty = false) :
    ∃ d, t.disk = some d ∧ d.clean = Live.plain t := by
  induction h with
  | zero =>
    rcases t with ⟨id, dirty, dk, x⟩ | ⟨id, d⟩
    · obtain rfl : dirty = false := hd
      obtain ⟨d, rfl, o, rfl⟩ := hS.2.1 rfl
      exact ⟨_, rfl, rfl⟩
    · exact ⟨d, rfl, rfl⟩
  | succ h ih =>
    rcases t with ⟨id, dirty, dk, x⟩ | ⟨id, d⟩
    · obtain rfl : dirty = false := hd
      induction x using Body.succCases with
      | hn ps cs b =>
        obtain ⟨d, rfl, o, ds, rfl, hds⟩ := hS.2.1 rfl
        refine ⟨_, rfl, ?_⟩
        have hkid : ∀ c ∈ cs, ∃ d, c.disk = some d ∧ d.clean = Live.plain c := fun c hcs =>
          ih (Body.closed_node.mp hc.2 c hcs) (Body.sound_node.mp hS.2.2 c hcs)
            (Body.kidsClean_node.mp (hc.1 rfl) c hcs)
        change (Tree.node false ps (ds.map Tree.clean) b : Flagged (h + 1)) = Tree.node false ps
          (cs.map Live.plain) b
        have hplain : cs.map Live.plain = ds.map Tree.clean := by
          have hopt : (cs.map Live.plain).map some = (ds.map Tree.clean).map some := by
            calc (cs.map Live.plain).map some = (cs.map Cell.disk).map (Option.map Tree.clean) := by
                  rw [List.map_map, List.map_map]
                  refine List.map_congr_left fun c hcs => ?_
                  obtain ⟨d, hd, hclean⟩ := hkid c hcs
                  simp [hd, hclean]
              _ = (ds.map some).map (Option.map Tree.clean) := congrArg _ hds
              _ = (ds.map Tree.clean).map some := by simp
          exact List.map_injective_iff.mpr (Option.some_injective _) hopt
        rw [hplain]
    · exact ⟨d, rfl, rfl⟩

lemma Live.publish_of_clean {off : NodeId → ℕ} (hc : Live.Closed t) (hS : Live.Sound P t)
    (hd : t.dirty = false) :
    (Live.publish off t).clean = (Live.plain t).cleaned := by
  obtain ⟨d, hdk, hplain⟩ := Live.clean_disk hc hS hd
  have hpub : Live.publish off t = d := by
    rcases t with ⟨id, dirty, dk, x⟩ | ⟨id, d⟩
    · obtain rfl : dirty = false := hd
      obtain rfl : dk = some d := hdk
      rfl
    · exact Option.some.inj hdk
  rw [hpub, ← hplain, Tree.cleaned_clean]

lemma Live.clean_publish {off : NodeId → ℕ} (hc : Live.Closed t) (hS : Live.Sound P t) :
    (Live.publish off t).clean = (Live.plain t).cleaned := by
  induction h with
  | zero =>
    cases hd : t.dirty with
    | false => exact Live.publish_of_clean hc hS hd
    | true =>
      rcases t with ⟨id, dirty, dk, x⟩ | ⟨id, d⟩
      · obtain rfl : dirty = true := hd
        rfl
      · cases hd
  | succ h ih =>
    cases hd : t.dirty with
    | false => exact Live.publish_of_clean hc hS hd
    | true =>
      rcases t with ⟨id, dirty, dk, x⟩ | ⟨id, d⟩
      · obtain rfl : dirty = true := hd
        induction x using Body.succCases with
        | hn ps cs b =>
          have hkids :
            (cs.map (Live.publish off)).map Tree.clean = (cs.map Live.plain).map Tree.cleaned := by
            rw [List.map_map, List.map_map]
            exact List.map_congr_left fun c hcs => ih (Body.closed_node.mp hc.2 c hcs)
              (Body.sound_node.mp hS.2.2 c hcs)
          exact congrArg (Tree.node false ps · b) hkids
      · cases hd

lemma Live.closed_of_cleaned (ht : (Live.plain t).cleaned = Live.plain t) : Live.Closed t := by
  induction h with
  | zero =>
    rcases t with ⟨id, dirty, dk, x⟩ | ⟨id, d⟩
    · exact ⟨fun _ => trivial, trivial⟩
    · trivial
  | succ h ih =>
    rcases t with ⟨id, dirty, dk, x⟩ | ⟨id, d⟩
    · induction x using Body.succCases with
      | hn ps cs b =>
        have hkids : (cs.map Live.plain).map Tree.cleaned = cs.map Live.plain :=
          congrArg NodeT.children ht
        have hkid : ∀ c ∈ cs, (Live.plain c).cleaned = Live.plain c := by
          rw [List.map_map] at hkids
          exact List.map_inj_left.mp hkids
        refine ⟨fun _ => Body.kidsClean_node.mpr fun c hc => ?_, Body.closed_node.mpr
          fun c hc => ih (hkid c hc)⟩
        rw [← Live.ann_plain, ← hkid c hc]
        cases h <;> rfl
    · trivial

end Closed

section Shows
variable {V : Type} [Crc32Fast]

/-- The tree in the records at and below an offset. -/
def Tree.Filed (file : List Byte) (watermark offset : ℕ) {h : ℕ} (T : Flagged h) : Prop :=
  match h, T with
  | 0, T => T.ann = false ∧ ∃ len, parseRecord file watermark offset = .ok (.leaf T.entries, len)
  | _ + 1, T =>
    T.ann = false ∧ ∃ cs len, parseRecord file watermark offset = .ok
      (.internal T.pivots cs T.buffer, len) ∧
      List.Forall₂ (fun c x => Filed file watermark (UInt64.toNat c) x) cs T.children

/-- The tree at a slot with its dirty flags: a node in memory is as it is, one on the device as in
its record, over the slots of the children that have any. -/
def DiskStore.Shows (file : List Byte) (d : DiskStore V) (id : NodeId) {h : ℕ}
    (T : Flagged h) : Prop :=
  match h, T with
  | 0, T =>
    (∃ off bytes tick, d.slots[id]? = some (.loaded (.leaf T.entries) T.ann off bytes tick)) ∨
      ∃ o, d.slots[id]? = some (.onDisk o) ∧ T.Filed file d.watermark o
  | _ + 1, T =>
    (∃ cs off bytes tick, d.slots[id]? = some
      (.loaded (.internal T.pivots cs T.buffer) T.ann off bytes tick) ∧
        List.Forall₂ (fun c x => Shows file d c x) cs T.children) ∨
      ∃ o cs len, d.slots[id]? = some (.onDisk o) ∧ T.ann = false ∧
        parseRecord file d.watermark o = .ok (.internal T.pivots cs T.buffer, len) ∧
        List.Forall₂ (fun c x => (∃ i, d.offsets.get? (UInt64.toNat c) = some i ∧
          Shows file d i x) ∨
          d.offsets.get? (UInt64.toNat c) = none ∧
            x.Filed file d.watermark (UInt64.toNat c)) cs T.children

lemma Tree.OnFile.filed {file : List Byte} {w h : ℕ} {v : VTree h} (hv : v.OnFile file w) :
    v.clean.Filed file w v.label := by
  induction h with
  | zero => exact ⟨rfl, hv.2⟩
  | succ h ih =>
    induction v using Tree.succCases with
    | hn a ps cs b =>
      obtain ⟨-, ⟨len, hp⟩, -, hkids⟩ := hv
      refine ⟨rfl, _, len, hp, ?_⟩
      change List.Forall₂ _ (cs.map fun c => UInt64.ofNat c.label) (cs.map Tree.clean)
      rw [List.forall₂_map_left_iff, List.forall₂_map_right_iff, List.forall₂_same]
      intro c hc
      obtain ⟨-, -, h64, hc'⟩ := hkids c hc
      rw [UInt64.toNat_ofNat_of_lt' h64]
      exact ih hc'

variable {file : V → List Byte} {s : Ideal} {d : DiskStore V} {h : ℕ} {t : Live h}

/-- A record that was never read is what its slot shows. -/
lemma DiskStore.Models.shows_stub {id : NodeId} {v : VTree h} (hm : DiskStore.Models file s d)
    (hx : s.slots id = some (.stub ⟨h, v⟩)) :
    d.Shows (file d.vfs) id v.clean := by
  have hon := hm.records id _ ⟨h, v⟩ hx rfl
  have hslot : d.slots[id]? = some (.onDisk v.label) := by
    obtain ⟨y, hy, hmatch⟩ := hm.slot hx
    cases hmatch
    exact hy
  cases h with
  | zero => exact Or.inr ⟨_, hslot, hon.filed⟩
  | succ h =>
    obtain ⟨hann, cs, len, hp, hkids⟩ := hon.filed
    refine Or.inr ⟨_, cs, len, hslot, hann, hp, ?_⟩
    -- no child of the record has a slot yet
    have hnone : ∀ c ∈ cs, d.offsets.get? (UInt64.toNat c) = none := fun c hc =>
      hm.stub_children hx hp hc
    have hboth := (List.forall₂_and_left cs _).mpr ⟨hnone, hkids⟩
    exact hboth.imp fun c x hcx => Or.inr hcx

/-- A clean node shows the same whether it is in memory or not. -/
lemma DiskStore.shows_onDisk {file : List Byte} {id : NodeId} {o : ℕ} {ps : List Key}
    {ids : List NodeId} {b : Buffer} {Ts : List (Flagged h)}
    (hoff : ∀ o i, d.offsets.get? o = some i ↔ slotOffset d.slots i = some o)
    (hslot : d.slots[id]? = some (.onDisk o))
    (href : Reflects file d.watermark d.slots o (.internal ps ids b))
    (hkids : List.Forall₂ (fun c x => d.Shows file c x) ids Ts) :
    d.Shows file id (Tree.node false ps Ts b : Flagged (h + 1)) := by
  cases href with
  | @internal _ cs _ len _ hp hlen hlt hids =>
    refine Or.inr ⟨o, cs, len, hslot, rfl, hp, ?_⟩
    change List.Forall₂ _ cs Ts
    clear hp hlen hlt
    induction hids generalizing Ts with
    | nil =>
      cases hkids
      exact .nil
    | @cons i c ids cs hic _ ih =>
      cases hkids with
      | cons hx hxs => exact .cons (Or.inl ⟨i, (hoff _ _).mpr hic, hx⟩) (ih hxs)

lemma DiskStore.Models.shows {P : (h : ℕ) → VTree h → Prop} (hm : DiskStore.Models file s d)
    (hF : Stored s (Live.foot t))
    (hS : Live.Sound P t) : d.Shows (file d.vfs) t.id (Live.plain t) := by
  induction h with
  | zero =>
    have hslot := hF.slots _ (Live.slot_mem_foot t)
    rcases t with ⟨id, dirty, dk, x⟩ | ⟨id, v⟩
    · obtain ⟨y, hy, hmatch⟩ := hm.slot hslot
      induction x using Body.zeroCases with
      | hl es =>
        generalize hz : some (Live.slot (Cell.known id dirty dk (Body.leaf es))) = z at hmatch
        cases hmatch with
        | freed => cases hz
        | stub => cases hz
        | loaded n dirty' r bytes tick =>
          cases hz
          exact Or.inl ⟨_, bytes, tick, hy⟩
        | evicted n r hk =>
          obtain ⟨rfl, rfl, hr⟩ : n = .leaf es ∧ dirty = false ∧ dk.map (Sigma.mk 0) = some r := by
            simpa [Live.slot, eq_comm] using hz
          obtain ⟨v, rfl, o, rfl⟩ := hS.2.1 rfl
          cases hr
          have hon := hm.records id _ ⟨0, Tree.leaf (some o) es⟩ hslot rfl
          exact Or.inr ⟨_, hy, hon.filed⟩
    · exact hm.shows_stub hslot
  | succ h ih =>
    have hslot := hF.slots _ (Live.slot_mem_foot t)
    rcases t with ⟨id, dirty, dk, x⟩ | ⟨id, v⟩
    · obtain ⟨y, hy, hmatch⟩ := hm.slot hslot
      induction x using Body.succCases with
      | hn ps cs b =>
        have hkids : List.Forall₂ (fun c x => d.Shows (file d.vfs) c x) (cs.map Cell.id)
          (cs.map Live.plain) := by
          rw [List.forall₂_map_left_iff, List.forall₂_map_right_iff, List.forall₂_same]
          exact fun c hc => ih (hF.kid hc) (Body.sound_node.mp hS.2.2 c hc)
        generalize hz : some (Live.slot (Cell.known id dirty dk (Body.node ps cs b))) = z at hmatch
        cases hmatch with
        | freed => cases hz
        | stub => cases hz
        | loaded n dirty' r bytes tick =>
          cases hz
          exact Or.inl ⟨_, _, bytes, tick, hy, hkids⟩
        | evicted n r hk =>
          obtain ⟨rfl, rfl, hr⟩ : n = .internal ps (cs.map Cell.id) b ∧ dirty = false ∧
            dk.map (Sigma.mk (h + 1)) = some r := by
            simpa [Live.slot, eq_comm] using hz
          obtain ⟨v, rfl, hrec⟩ := hS.2.1 rfl
          cases hr
          have hback := Beetree.readsBack hF hrec
          exact DiskStore.shows_onDisk hm.offsets_iff hy
            (hm.reflects (hm.records id _ _ hslot rfl) hback) hkids
    · exact hm.shows_stub hslot

end Shows

section Flags
variable {h : ℕ} {t : Live h}

lemma SlotMatch.dirty {kept : Prop} {z : Option Slot} {x : NodeSlot} (hm : SlotMatch kept z x) :
    x.dirty = (z.map Slot.dirty).getD false := by
  cases hm with
  | freed => rfl
  | loaded n dirty r bytes tick => rfl
  | evicted n r => rfl
  | stub r => rfl

lemma Live.cleaned_iff : (Live.plain t).cleaned = Live.plain t ↔
    ∀ x ∈ Live.foot t, x.2.dirty = false := by
  induction h with
  | zero =>
    rcases t with ⟨id, dirty, dk, x⟩ | ⟨id, v⟩
    · induction x using Body.zeroCases with
      | hl es =>
        constructor
        · intro heq x hx
          cases List.mem_singleton.mp hx
          exact (congrArg LeafT.ann heq).symm
        · intro hx
          obtain rfl : dirty = false := hx _ (List.mem_singleton_self _)
          rfl
    · refine ⟨fun _ x hx => ?_, fun _ => Tree.cleaned_clean v⟩
      cases List.mem_singleton.mp hx
      rfl
  | succ h ih =>
    rcases t with ⟨id, dirty, dk, x⟩ | ⟨id, v⟩
    · induction x using Body.succCases with
      | hn ps cs b =>
        constructor
        · intro heq x hx
          rcases List.mem_cons.mp hx with rfl | hx
          · exact (congrArg NodeT.ann heq).symm
          · obtain ⟨c, hc, hx⟩ := List.mem_flatMap.mp hx
            have hkids : (cs.map Live.plain).map Tree.cleaned = cs.map Live.plain :=
              congrArg NodeT.children heq
            rw [List.map_map] at hkids
            exact ih.mp (List.map_inj_left.mp hkids c hc) x hx
        · intro hx
          obtain rfl : dirty = false := hx _ (List.mem_cons_self ..)
          have hkids : (cs.map Live.plain).map Tree.cleaned = cs.map Live.plain := by
            rw [List.map_map]
            refine List.map_congr_left fun c hc => ih.mpr fun x hx' => hx x ?_
            exact List.mem_cons_of_mem _ (List.mem_flatMap.mpr ⟨c, hc, hx'⟩)
          exact congrArg (Tree.node false ps · b) hkids
    · refine ⟨fun _ x hx => ?_, fun _ => Tree.cleaned_clean v⟩
      cases List.mem_singleton.mp hx
      rfl

lemma Live.Closed.commit (hc : Live.Closed t) (off : NodeId → ℕ) :
    Live.Closed (Live.commit off t) := by
  refine Live.closed_of_cleaned ?_
  rw [Live.clean_commit hc]
  exact Tree.relabel_relabel _ _ _

end Flags

section Engines
variable {π V : Type} [Crc32Fast] {file : V → List Byte} {r : DiskEngine π V} {e : Engine π Ideal}
    {h : ℕ} {t : Live h}

def DiskStore.Clean (d : DiskStore V) :
    Prop := ∀ (i : NodeId) x, d.slots[i]? = some x → x.dirty = false

def DiskEngine.Shows (file : V → List Byte) (r : DiskEngine π V) (T : Flagged h) :
    Prop := r.store.Shows (file r.store.vfs) r.root T

lemma Follows.shows (hr : Follows file r e t) : DiskEngine.Shows file r (Live.plain t) := by
  have hroot : r.root = t.id := by rw [← hr.holds.root, hr.alike.root]
  unfold DiskEngine.Shows
  rw [hroot]
  exact hr.alike.store.shows hr.holds.stored hr.holds.sound

lemma Follows.clean_iff (hr : Follows file r e t) :
    r.store.Clean ↔ (Live.plain t).cleaned = Live.plain t := by
  have hm := hr.alike.store
  rw [Live.cleaned_iff]
  constructor
  · intro hc x hx
    obtain ⟨y, hy, hmatch⟩ := hm.slot (hr.holds.stored.slots x hx)
    exact hmatch.dirty.symm.trans (hc _ y hy)
  · intro hc i x hx
    have hmatch := hm.slot_of hx
    rw [hmatch.dirty]
    cases hz : e.store.slots i with
    | none => rfl
    | some z => exact hc _ (hr.holds.mem_foot (hm.bound i z hz) hz)

end Engines

section Runs
variable {π V : Type} [FlushPolicy π] [Vfs V] [Honest V] [Crc32Fast] {r r' : DiskEngine π V}

/-- A call that leaves the engine in service. It may have failed. A drain is one that changes
nothing below a clean node it leaves alone. -/
def DiskEngine.Advances (r r' : DiskEngine π V) : Prop :=
  ∃ op, ((∃ reply N, ∀ fuel ≥ N, DiskEngine.step fuel op r = .ok reply r') ∨
      (∃ x N, ∀ fuel ≥ N, DiskEngine.step fuel op r = .error (.storage x) r') ∧
        r'.store.poisoned = false) ∧
    (op = .op .drain → ∀ (h : ℕ) (T : Flagged h), DiskEngine.Shows Honest.file r T →
      T.DrainSafe (fun _ => False) none none)

/-- An engine in whose tree nothing below a clean node is dirty. -/
def DiskEngine.Connected (r : DiskEngine π V) : Prop :=
  ∃ (e : Engine π Ideal) (h : ℕ) (t : Live h) (sb : Superblock) (D : Record)
    (prev : Option (Superblock × Record)),
    Sits Honest.file Honest.Idle r e t sb D prev ∧ Live.Closed t

omit [FlushPolicy π] in
/-- A call that fails and does not poison the engine has only read. -/
lemma Failed.connected {e : Engine π Ideal} {h : ℕ} {t : Live h} {sb : Superblock} {D : Record}
    {prev : Option (Superblock × Record)}
    {op : DiskOp} {f : Fault}
    (hfail : Failed Honest.file Honest.Idle (Honest.Reports V) e t sb D prev r op f r')
    (hc : Live.Closed t)
    (hf : f.IsStorage) (hp : r'.store.poisoned = false) : DiskEngine.Connected r' := by
  cases hfail with
  | missed _ hb hs => exact ⟨_, h, _, sb, D, prev, hs, hb.opens.leads.closed rfl hc⟩
  | poisoned _ _ hp' => simp [hp] at hp'
  | overflow =>
    obtain ⟨x, hx⟩ := hf
    cases hx
  | panic =>
    obtain ⟨x, hx⟩ := hf
    cases hx

lemma DiskEngine.Connected.step (hπ : FlushPolicy.Legal π)
    (hr : DiskEngine.Connected r) {op : DiskOp}
    (hop : op = .op .drain → ∀ (h : ℕ) (T : Flagged h), DiskEngine.Shows Honest.file r T →
      T.DrainSafe (fun _ => False) none none) :
    ∃ N, ∀ fuel ≥ N, Ends (DiskEngine.step fuel op) r (fun _ r' => DiskEngine.Connected r')
    fun f r' =>
      f.IsStorage → r'.store.poisoned = false → DiskEngine.Connected r' := by
  obtain ⟨e, h, t, sb, D, prev, hs, hc⟩ := hr
  by_cases hcommit : op = .commit
  · subst hcommit
    obtain ⟨N, hN⟩ := hs.commit Honest.device
    refine ⟨N, fun fuel hf => ((hN fuel hf).mono (fun _ _ h => h) ?_).bind ?_⟩
    · intro f r' hpoison hf hp
      obtain ⟨r₁, -, rfl⟩ := hpoison.storage hf
      cases hp
    · rintro stats r' ⟨batch, -, hs'⟩
      exact .of_ok rfl ⟨_, _, _, _, _, _, hs', hc.commit batch.offset⟩
  · by_cases hnum : op.Numbered e.nextSeq
    · have hsafe : op.Safe false t := by
        cases op with
        | op o => exact Or.inr fun ho => hop (congrArg _ ho) h _ hs.toFollows.shows
        | _ => trivial
      obtain ⟨reply, e', h', t', N, hresp, -, hN⟩ := call_run (Honest.device (V := V))
        (fun _ hf => Honest.storage hf) hπ hs.holds hcommit hnum hsafe
      refine ⟨N, fun fuel hf => (hN fuel hf r sb D prev hs).mono ?_ ?_⟩
      · rintro reply' r' ⟨-, hs'⟩
        exact ⟨e', h', t', sb, D, prev, hs', hresp.evolves.closed rfl hc⟩
      · exact fun f r' hfail hf hp => hfail.connected hc hf hp
    · exact ⟨0, fun fuel _ => (call_overflow Honest.device hnum hs fuel).mono (fun _ _ h => h.elim)
        fun f r' hfail hf hp =>
        hfail.connected hc hf hp⟩

lemma DiskEngine.Connected.run (hπ : FlushPolicy.Legal π) (hr : DiskEngine.Connected r)
    (hrun : Relation.ReflTransGen DiskEngine.Advances r r') :
    DiskEngine.Connected r' := by
  induction hrun with
  | refl => exact hr
  | tail _ hlast ih =>
    obtain ⟨op, hend, hop⟩ := hlast
    obtain ⟨N, hN⟩ := ih.step hπ hop
    rcases hend with ⟨reply, M, hM⟩ | ⟨⟨x, M, hM⟩, hp⟩
    · exact (hN _ (le_max_left N M)).ok (hM _ (le_max_right N M))
    · exact (hN _ (le_max_left N M)).error (hM _ (le_max_right N M)) ⟨x, rfl⟩ hp

omit [FlushPolicy π] in
/-- Where nothing below a clean node is dirty, a commit writes the tree as it is: after it nothing
is dirty, and an engine that opens the file sits on a tree with the same nodes, the parameters and
both counters. -/
lemma Sits.commit_shows {e : Engine π Ideal} {h : ℕ} {t : Live h} {sb : Superblock} {D : Record}
    {prev : Option (Superblock × Record)}
    (hs : Sits Honest.file Honest.Idle r e t sb D prev) (hclosed : Live.Closed t) {fuel : ℕ}
    {stats : CommitStats}
    (hc : DiskEngine.commit fuel r = .ok stats r') :
    DiskEngine.Shows Honest.file r' (Live.plain t).cleaned ∧ r'.store.Clean ∧
    (∃ m, Represents r' m) ∧
      ∀ {σ : Type} {budget : Option ℕ} {policy : σ} {v : V} {r'' : DiskEngine σ V}, Honest.Idle v →
        Honest.file v = Honest.file r'.store.vfs → DiskEngine.openOn budget policy v = .ok r'' →
        (∃ (e'' : Engine σ Ideal) (t'' : Live h) (sb : Superblock) (D : Record)
          (prev : Option (Superblock × Record)),
          Sits Honest.file Honest.Idle r'' e'' t'' sb D prev ∧
          Live.plain t'' = (Live.plain t).cleaned) ∧
        r''.params = r.params ∧ r''.nextSeq = r.nextSeq ∧ r''.generation = r'.generation := by
  obtain ⟨N, hN⟩ := hs.commit Honest.device
  obtain ⟨batch, -, hs'⟩ :=
    (hN _ (le_max_right fuel N)).ok ((DiskEngine.refines_commit (le_max_left fuel N)).ok hc)
  have hplain : Live.plain (Live.commit batch.offset t) = (Live.plain t).cleaned :=
    Live.clean_commit hclosed
  refine ⟨hplain ▸ hs'.toFollows.shows, ?_, ⟨_, _, _, _, _, _, _, hs', rfl⟩, ?_⟩
  · rw [hs'.toFollows.clean_iff, hplain]
    exact Tree.relabel_relabel _ _ _
  · intro σ budget policy v r'' hv hfile ho
    obtain ⟨hs'', -⟩ := sits_openOn (hfile ▸ hs'.durable) hv ho
    have hpub : (Live.publish batch.offset t).clean = (Live.plain t).cleaned :=
      Live.clean_publish hclosed hs.holds.sound
    refine ⟨⟨_, _, _, _, _, hs'', hpub⟩, ?_, ?_, ?_⟩
    · rw [hs''.alike.params, hs.alike.params]
      rfl
    · rw [hs''.alike.nextSeq, hs.alike.nextSeq]
      rfl
    · unfold DiskEngine.generation
      rw [hs''.nextGeneration, hs'.nextGeneration]

/-- Where nothing was dirty, whatever calls follow, a commit writes the tree in memory as it is:
after it nothing is dirty, and an engine that opens the file has that tree, the parameters and both
counters. -/
theorem commit_roundTrip {m : KvStore} {r₀ : DiskEngine π V} (h₀ : History m r₀)
    (hclean : r₀.store.Clean)
    (hrun : Relation.ReflTransGen DiskEngine.Advances r₀ r) {fuel : ℕ} {stats : CommitStats}
    (hc : DiskEngine.commit fuel r = .ok stats r') :
    ∃ (h : ℕ) (T : Flagged h), DiskEngine.Shows Honest.file r T ∧
    DiskEngine.Shows Honest.file r' T.cleaned ∧ r'.store.Clean ∧
      ∀ {σ : Type} (budget : Option ℕ) (policy : σ) (v : V) (r'' : DiskEngine σ V), Honest.Idle v →
        Honest.file v = Honest.file r'.store.vfs → DiskEngine.openOn budget policy v = .ok r'' →
        DiskEngine.Shows Honest.file r'' T.cleaned ∧ r''.params = r.params ∧
        r''.nextSeq = r.nextSeq ∧ r''.generation = r'.generation := by
  obtain ⟨hπ, e₀, _, t₀, sb₀, D₀, prev₀, hs₀, -⟩ := h₀.represents
  have hconn : DiskEngine.Connected r₀ :=
    ⟨e₀, _, t₀, sb₀, D₀, prev₀, hs₀, Live.closed_of_cleaned (hs₀.toFollows.clean_iff.mp hclean)⟩
  obtain ⟨e, h, t, sb, D, prev, hs, hclosed⟩ := hconn.run hπ hrun
  obtain ⟨hshow, hclean', -, hopen⟩ := hs.commit_shows hclosed hc
  refine ⟨h, Live.plain t, hs.toFollows.shows, hshow, hclean',
    fun budget policy v r'' hv hfile ho => ?_⟩
  obtain ⟨⟨_, t'', _, _, _, hs'', hplain⟩, hrest⟩ := hopen hv hfile ho
  exact ⟨hplain ▸ hs''.toFollows.shows, hrest⟩

end Runs

/-- Dirty nodes are written above records that a commit left, and the file is opened again. -/
theorem commit_roundTrip_worn : ∃ (r₁ r₂ r₃ r' : DiskEngine GreedyFullest FaultyVfs) (fuel : ℕ)
    (stats : CommitStats),
    (∀ x ∈ r₁.store.slots, x.dirty = false) ∧ (∃ x ∈ r₂.store.slots, x.dirty = true) ∧
    .onDisk 8323 ∈ r₂.store.slots ∧
    @DiskEngine.commit _ _ _ crc32Ieee fuel r₂ = .ok stats r₃ ∧
    @DiskEngine.openOn _ _ _ crc32Ieee none ⟨⟩ (.fromImage r₃.store.vfs.view) = .ok r' ∧
    (∃ (h : ℕ) (T : Flagged h), @DiskEngine.Shows _ _ crc32Ieee _ (fun v => v.view) r₂ T ∧
      @DiskEngine.Shows _ _ crc32Ieee _ (fun v => v.view) r₃ T.cleaned ∧
      @DiskEngine.Shows _ _ crc32Ieee _ (fun v => v.view) r' T.cleaned) ∧
    r₃.store.Clean ∧ r'.params = r₂.params ∧ r'.nextSeq = r₂.nextSeq ∧
    r'.generation = r₃.generation := by
  let _ := crc32Ieee
  let _ : Honest FaultyVfs := Reliable.honest
  obtain ⟨r₀, r₁, r₂, r₃, -, replies, replies', replies'', h₀, h₁, h₂, h₃, -, hclean, -, -, hdirty,
    hdisk, -⟩ := DiskEngine.worn
  have hr₁ :
    History .churned r₁ := (History.create GreedyFullest.legal FaultyVfs.idle_new h₀).runs h₁
  have hr₃ := (hr₁.runs h₂).runs h₃
  obtain ⟨reply, r, hstep, hpure⟩ := bind_eq_ok h₂
  cases hpure
  have hrun : DiskEngine.Advances r₁ r₂ :=
    ⟨.op (.mutate (.delete [4])),
      Or.inl ⟨reply, 40, fun _ hf => (DiskEngine.refines_step hf _).ok hstep⟩, by simp⟩
  obtain ⟨_, _, hcommits, hpure⟩ := bind_eq_ok h₃
  cases hpure
  obtain ⟨stats, _, hcommit, hpure⟩ := bind_eq_ok hcommits
  cases hpure
  obtain ⟨r', hopen⟩ := hr₃.represents.2.opens none (⟨⟩ : GreedyFullest)
  obtain ⟨h, T, hshows, hshows', hclean', hopened⟩ := commit_roundTrip hr₁
    (fun i x hx => hclean x (List.mem_of_getElem? hx)) (.single hrun) hcommit
  obtain ⟨hshows'', hparams, hseq, hgen⟩ :=
    hopened none ⟨⟩ _ r' (FaultyVfs.idle_fromImage _) rfl hopen
  exact ⟨r₁, r₂, r₃, r', 40, stats, hclean, hdirty, hdisk, hcommit, hopen,
    ⟨h, T, hshows, hshows', hshows''⟩, hclean', hparams, hseq,
    hgen⟩

end Beetree
