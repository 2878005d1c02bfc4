import Beetree.Charted
import Beetree.Open
import Beetree.Scan

/-! Opening and reading a file whatever its bytes are. -/
namespace Beetree

section Walks
variable [Crc32Fast] {π V : Type} [Vfs V] [ExactReads V] {file : List Byte}
    {e e' e'' : DiskEngine π V} {id : NodeId}
  {offset : ℕ}

structure Browsing (file : List Byte) (e e' : DiskEngine π V) : Prop where
  reading : Reading file e.store e'.store
  root : e'.root = e.root

lemma Browsing.trans (h : Browsing file e e') (h' : Browsing file e' e'') : Browsing file e e'' :=
  ⟨⟨h'.reading.charted, h'.reading.file_eq, h.reading.later.trans h'.reading.later⟩,
    h'.root.trans h.root⟩

lemma Browsing.same (h : Browsing file e e') : Browsing file e' e' :=
  ⟨⟨h.reading.charted, h.reading.file_eq, .refl _⟩, rfl⟩

def Fails (file : List Byte) (e : DiskEngine π V) (f : Fault) (e' : DiskEngine π V) : Prop :=
  (∃ x, f = .storage x) ∧ Browsing file e e'

lemma Browsing.ends {α : Type} (h : Browsing file e e') {x : Engine.Act π (DiskStore V) α}
    {Q : α → DiskEngine π V → Prop} (hx : Ends x e' Q (Fails file e')) :
    Ends x e' Q (Fails file e) :=
  hx.mono (fun _ _ hq => hq) fun _ _ hf => ⟨hf.1, h.trans hf.2⟩

lemma visit_charted (he : Browsing file e e) (hid : slotOffset e.store.slots id = some offset)
    (pins : List NodeId)
    {α : Type} {k : Node → Engine.Act π (DiskStore V) α} {Q : α → DiskEngine π V → Prop}
    (hk : ∀ node e', Browsing file e e' → InMemory e'.store id node →
      Reflects file e'.store.watermark e'.store.slots offset node →
      (∀ i ∈ pins, ∀ node, InMemory e.store i node → InMemory e'.store i node) →
      Ends (k node) e' Q (Fails file e)) :
    Ends (do Engine.ensureLoaded id pins; k (← Engine.loaded id)) e Q (Fails file e) := by
  have hstore := ensureLoaded_charted he.reading.charted he.reading.file_eq hid pins
  unfold Ends at hstore
  cases hrun : DiskStore.ensureLoaded id pins e.store with
  | error f s' =>
    rw [hrun] at hstore
    have hfail : Engine.ensureLoaded id pins e = .error f { e with store := s' } := by
      simp only [Engine.ensureLoaded, Engine.onStore, NodeStore.ensureLoaded, hrun]
    exact .of_error (run_bind_error hfail) ⟨hstore.1, hstore.2, rfl⟩
  | ok u s' =>
    rw [hrun] at hstore
    obtain ⟨hread, ⟨node, hmem⟩, hpins⟩ := hstore
    have hload : Engine.ensureLoaded id pins e = .ok () { e with store := s' } := by
      simp only [Engine.ensureLoaded, Engine.onStore, NodeStore.ensureLoaded, hrun]
    obtain ⟨o, bytes, tick, hx⟩ := hmem
    have hnode :
      Engine.loaded id ({ e with store := s' } : DiskEngine π V) = .ok node
        { e with store := s' } := by
      simp only [Engine.loaded, Engine.onStore, NodeStore.loaded, DiskStore.loaded, hx]
    obtain rfl : o = offset := by
      have := hread.later.offset id offset hid
      simpa [slotOffset, hx, NodeSlot.offset] using this
    have hr : Reflects file s'.watermark s'.slots o node := by
      rcases hread.charted.slots id _ hx with ⟨_, h⟩ | ⟨_, _, _, _, h, hr⟩
      · cases h
      · cases h
        exact hr
    unfold Ends
    rw [run_bind_ok hload, run_bind_ok hnode]
    exact hk node _ ⟨hread, rfl⟩ ⟨o, bytes, tick, hx⟩ hr hpins

omit [Vfs V] [ExactReads V] in
lemma Reflects.child {watermark : ℕ} {slots : List NodeSlot} {ps : List Key}
    {ids : List NodeId} {b : Buffer}
    (h : Reflects file watermark slots offset (.internal ps ids b)) :
    ids.length = ps.length + 1 ∧ ids.length = (childOffsets file watermark offset).length ∧
      ∀ (i : ℕ) (c : NodeId), ids[i]? = some c → ∃ o, slotOffset slots c = some o ∧ o < offset ∧
        (childOffsets file watermark offset)[i]? = some o := by
  cases h with
  | @internal _ children _ _ _ hp ha hc hf =>
    have hcs : childOffsets file watermark offset = children.map UInt64.toNat := by
      unfold childOffsets
      rw [hp]
      exact List.filter_eq_self.mpr fun o ho => by
        obtain ⟨c, hcc, rfl⟩ := List.mem_map.mp ho
        exact decide_eq_true (hc c hcc)
    rw [hcs]
    refine ⟨hf.length_eq.trans ha, by rw [List.length_map, hf.length_eq], fun i c hi => ?_⟩
    obtain ⟨hlt, rfl⟩ := List.getElem?_eq_some_iff.mp hi
    have hlt' : i < children.length := hf.length_eq ▸ hlt
    exact ⟨_, hf.get hlt hlt', hc _ (List.getElem_mem hlt'), by simp [hlt']⟩

lemma getLoop_charted (key : Key) (n : ℕ) (chain : Option (BitVec 64)) (he : Browsing file e e)
    (hid : slotOffset e.store.slots id = some offset) (hn : offset < n) :
    Ends (Engine.getLoop key n chain id) e (fun _ e' => Browsing file e e') (Fails file e) := by
  induction n generalizing chain id offset e with
  | zero => exact absurd hn (Nat.not_lt_zero _)
  | succ n ih =>
    refine visit_charted he hid [] fun node e' he' hmem hr _ => ?_
    cases node with
    | leaf es => exact .of_ok rfl he'
    | internal ps ids b =>
      obtain ⟨hlen, -, hkids⟩ := hr.child
      have hlt : route ps key < ids.length := hlen ▸ Nat.lt_succ_of_le (route_le_length ps key)
      obtain ⟨o, ho, hlo, -⟩ := hkids _ _ (List.getElem?_eq_getElem hlt)
      have hdown : ∀ chain, Ends (Engine.getLoop key n chain ids[route ps key]) e'
          (fun _ e' => Browsing file e e') (Fails file e) := by
        intro chain
        exact he'.ends ((ih chain he'.same ho (by omega)).mono
          (fun _ _ h => he'.trans h) fun _ _ h => h)
      dsimp only
      rw [List.getElem?_eq_getElem hlt]
      rcases b.get? key with _ | ⟨_, _⟩ | ⟨_⟩ | ⟨_, ⟨delta⟩⟩
      · exact hdown chain
      · exact .of_ok rfl he'
      · exact .of_ok rfl he'
      · exact hdown _

lemma heightLoop_charted (n height : ℕ) (he : Browsing file e e)
    (hid : slotOffset e.store.slots id = some offset) (hn : offset < n) :
    Ends (DiskEngine.heightLoop n height id) e (fun _ e' => Browsing file e e') (Fails file e) := by
  induction n generalizing height id offset e with
  | zero => exact absurd hn (Nat.not_lt_zero _)
  | succ n ih =>
    refine visit_charted he hid [] fun node e' he' hmem hr _ => ?_
    cases node with
    | leaf es => exact .of_ok rfl he'
    | internal ps ids b =>
      obtain ⟨hlen, -, hkids⟩ := hr.child
      cases ids with
      | nil => simp at hlen
      | cons child ids =>
        obtain ⟨o, ho, hlo, -⟩ := hkids 0 child rfl
        exact he'.ends
          ((ih _ he'.same ho (by omega)).mono (fun _ _ h => he'.trans h) fun _ _ h => h)

def Stacked (s : DiskStore V) (ids : List NodeId) (offsets : List ℕ) : Prop :=
  List.Forall₂ (fun id o => slotOffset s.slots id = some o) ids offsets

omit [Crc32Fast] [Vfs V] [ExactReads V] in
lemma Stacked.later {s s' : DiskStore V} {ids : List NodeId} {offsets : List ℕ}
    (h : Stacked s ids offsets)
    (hl : Later s s') : Stacked s' ids offsets := h.imp fun id o ho => hl.offset id o ho

omit [Vfs V] [ExactReads V] in
lemma Reflects.stacked {s : DiskStore V} {node : Node}
    (h : Reflects file s.watermark s.slots offset node) :
    Stacked s node.children (childOffsets file s.watermark offset) := by
  cases node with
  | leaf es =>
    cases h with
    | leaf hp =>
      unfold childOffsets
      rw [hp]
      exact .nil
  | internal ps ids b =>
    obtain ⟨-, hlen, hkids⟩ := h.child
    refine List.forall₂_iff_get.mpr ⟨hlen, fun i h₁ h₂ => ?_⟩
    obtain ⟨o, ho, -, hi⟩ := hkids i _ (List.getElem?_eq_getElem h₁)
    rw [List.getElem?_eq_getElem h₂] at hi
    rw [List.get_eq_getElem, List.get_eq_getElem, Option.some.inj hi]
    exact ho

lemma loadLoop_charted (n : ℕ) {stack : List NodeId} {offsets : List ℕ} (he : Browsing file e e)
    (hstack : Stacked e.store stack offsets)
    (hn : (offsets.map (walkCost file e.store.watermark)).sum < n) :
    Ends (Engine.loadLoop n stack) e (fun _ e' => Browsing file e e') (Fails file e) := by
  induction n generalizing stack offsets e with
  | zero => exact absurd hn (Nat.not_lt_zero _)
  | succ n ih =>
    cases hstack with
    | nil => exact .of_ok rfl he
    | @cons id o stack offsets hid hstack =>
      refine visit_charted he hid [] fun node e' he' hmem hr _ => ?_
      have hwm : e'.store.watermark = e.store.watermark := he'.reading.later.watermark
      have hcost : (((childOffsets file e'.store.watermark o).reverse ++ offsets).map
          (walkCost file e'.store.watermark)).sum < n := by
        have hwalk := walkCost_eq file e.store.watermark o
        have hle :
          ((childOffsets file e.store.watermark o).map (walkCost file e.store.watermark)).sum ≤
            ((childOffsets file e.store.watermark o).map
              fun c => walkCost file e.store.watermark c + 1).sum :=
          List.sum_le_sum fun c _ => Nat.le_succ _
        rw [restCost, List.drop_zero] at hwalk
        rw [List.map_cons, List.sum_cons] at hn
        rw [hwm, List.map_append, List.sum_append, List.map_reverse, List.sum_reverse]
        omega
      have hstack' : Stacked e'.store (node.children.reverse ++ stack)
          ((childOffsets file e'.store.watermark o).reverse ++ offsets) :=
        List.rel_append (List.rel_reverse hr.stacked) (Stacked.later hstack he'.reading.later)
      exact he'.ends ((ih he'.same hstack' hcost).mono (fun _ _ h => he'.trans h) fun _ _ h => h)

/-- A frame of a scan: its node is in memory, and its range is one that can be asked for. -/
structure FrameOk (file : List Byte) (s : DiskStore V) (frame : ScanFrame) (offset : ℕ) : Prop where
  memory : ∃ ps ids b, InMemory s frame.id (.internal ps ids b)
  offset : slotOffset s.slots frame.id = some offset
  range : rangeIsEmpty frame.lo frame.hi = false

omit [Crc32Fast] [Vfs V] [ExactReads V] in
lemma InMemory.unique {s : DiskStore V} {node node' : Node} (h : InMemory s id node)
    (h' : InMemory s id node') :
    node = node' := by
  obtain ⟨_, _, _, h⟩ := h
  obtain ⟨_, _, _, h'⟩ := h'
  rw [h] at h'
  cases h'
  rfl

omit [Vfs V] [ExactReads V] in
lemma Charted.reflects {s : DiskStore V} (hs : Charted file s) {node : Node}
    (hid : slotOffset s.slots id = some offset)
    (h : InMemory s id node) : Reflects file s.watermark s.slots offset node := by
  obtain ⟨o, bytes, tick, hx⟩ := h
  rcases hs.slots id _ hx with ⟨_, h⟩ | ⟨_, _, _, _, h, hr⟩
  · cases h
  · cases h
    obtain rfl : o = offset := by simpa [slotOffset, hx, NodeSlot.offset] using hid
    exact hr

omit [Crc32Fast] in
lemma childBounds_isSome {ps : List Key} {i : ℕ} (hi : i ≤ ps.length) (lo hi' : Bound) :
    ∃ bounds, Engine.childBounds ps lo hi' i = some bounds := by
  have hlo : ∃ cLo, (if i = 0 then some lo else (ps[i - 1]?).map (clipLower lo)) = some cLo := by
    split_ifs with h0
    · exact ⟨lo, rfl⟩
    · exact ⟨_, by rw [List.getElem?_eq_getElem (by omega)]; rfl⟩
  have hhi : ∃ cHi, (if i = ps.length then some hi' else (ps[i]?).map (clipUpper hi')) = some
    cHi := by
    split_ifs with hl
    · exact ⟨hi', rfl⟩
    · exact ⟨_, by rw [List.getElem?_eq_getElem (by omega)]; rfl⟩
  obtain ⟨cLo, hcLo⟩ := hlo
  obtain ⟨cHi, hcHi⟩ := hhi
  refine ⟨(cLo, cHi), ?_⟩
  have hbind : Engine.childBounds ps lo hi' i =
      (if i = 0 then some lo else (ps[i - 1]?).map (clipLower lo)).bind fun cLo =>
        (if i = ps.length then some hi' else (ps[i]?).map (clipUpper hi')).bind fun cHi =>
          some (cLo, cHi) := by
    unfold Engine.childBounds
    split_ifs <;> rfl
  rw [hbind, hcLo, hcHi]
  rfl

def scanCost (file : List Byte) (watermark : ℕ) (frames : List ScanFrame) (offsets : List ℕ) : ℕ :=
  (List.zipWith (fun (frame : ScanFrame) o => restCost file watermark o frame.nextChild)
    frames offsets).sum

lemma scanLoop_charted (n : ℕ) {frames : List ScanFrame} {offsets : List ℕ} (he : Browsing file e e)
    (hne : frames ≠ []) (hframes : List.Forall₂ (FrameOk file e.store) frames offsets)
    (hn : scanCost file e.store.watermark frames offsets < n) :
    Ends (Engine.scanLoop n frames) e (fun _ e' => Browsing file e e') (Fails file e) := by
  induction n generalizing frames offsets e with
  | zero => exact absurd hn (Nat.not_lt_zero _)
  | succ n ih =>
    cases hframes with
    | nil => exact absurd rfl hne
    | @cons frame o rest offsets hframe hrest =>
      obtain ⟨ps, ids, b, hmem⟩ := hframe.memory
      have hr := he.reading.charted.reflects hframe.offset hmem
      obtain ⟨hlen, hlen', hkids⟩ := hr.child
      have hload : Engine.loaded frame.id e = .ok (.internal ps ids b) e := by
        obtain ⟨_, _, _, hx⟩ := hmem
        simp only [Engine.loaded, Engine.onStore, NodeStore.loaded, DiskStore.loaded, hx]
      have hcost : restCost file e.store.watermark o frame.nextChild +
          scanCost file e.store.watermark rest offsets < n + 1 := hn
      unfold Ends
      rw [Engine.scanLoop, Engine.scanLoopOr, run_bind_ok hload]
      dsimp only
      cases hchild : ids[frame.nextChild]? with
      | none =>
        dsimp only
        rw [rangeOf_of_nonempty b hframe.range]
        dsimp only
        cases hrest with
        | nil => exact he
        | @cons parent o' rest offsets' hparent hrest =>
          have hparent' : ∀ acc, FrameOk file e.store { parent with acc := acc } o' := fun _ =>
            ⟨hparent.memory, hparent.offset, hparent.range⟩
          have hcost' : scanCost file e.store.watermark (parent :: rest) (o' :: offsets') < n := by
            have h0 : 0 < restCost file e.store.watermark o frame.nextChild := by
              unfold restCost
              omega
            omega
          exact ih he (by simp) (.cons (hparent' _) hrest) hcost'
      | some child =>
        obtain ⟨oc, hoc, hlt, hci⟩ := hkids _ _ hchild
        have hi : frame.nextChild ≤ ps.length := by
          have := (List.getElem?_eq_some_iff.mp hchild).1
          omega
        obtain ⟨⟨cLo, cHi⟩, hbounds⟩ := childBounds_isSome hi frame.lo frame.hi
        have hstep := restCost_succ hci
        have hnext : ∀ (e' : DiskEngine π V) acc, Browsing file e e' →
          List.Forall₂ (FrameOk file e'.store) (frame :: rest)
            (o :: offsets) →
              Ends (Engine.scanLoop n
                ({ frame with nextChild := frame.nextChild + 1, acc := acc } :: rest)) e'
              (fun _ e' => Browsing file e e') (Fails file e) := by
          intro e' acc he' hok
          cases hok with
          | cons hf hrest' =>
            have hwm : e'.store.watermark = e.store.watermark := he'.reading.later.watermark
            have hok' :
              FrameOk file e'.store { frame with nextChild := frame.nextChild + 1, acc := acc } o :=
              ⟨hf.memory, hf.offset, hf.range⟩
            have hcost' : restCost file e'.store.watermark o (frame.nextChild + 1) +
                scanCost file e'.store.watermark rest offsets < n := by
              rw [hwm]
              omega
            exact he'.ends ((ih he'.same (by simp) (.cons hok' hrest') hcost').mono
              (fun _ _ h => he'.trans h)
              fun _ _ h => h)
        dsimp only
        rw [hbounds]
        dsimp only
        split_ifs with hempty
        · exact hnext e frame.acc he (.cons hframe hrest)
        · refine visit_charted he hoc ((frame :: rest).map ScanFrame.id)
            fun node e' he' hmem' hr' hpins => ?_
          have hok : List.Forall₂ (FrameOk file e'.store) (frame :: rest) (o :: offsets) := by
            have hpins' : ∀ fr ∈ frame :: rest, ∀ node, InMemory e.store fr.id node →
              InMemory e'.store fr.id node :=
              fun fr hfr => hpins fr.id (List.mem_map_of_mem hfr)
            have hold : List.Forall₂ (FrameOk file e.store) (frame :: rest) (o :: offsets) :=
              .cons hframe hrest
            clear hn hcost hnext hpins
            revert hold hpins'
            generalize frame :: rest = fs
            generalize o :: offsets = os
            intro hpins' hold
            induction hold with
            | nil => exact .nil
            | cons hf _ ih =>
              refine .cons ⟨?_, he'.reading.later.offset _ _ hf.offset, hf.range⟩
                (ih fun fr hfr => hpins' fr (by simp [hfr]))
              obtain ⟨ps, ids, b, hm⟩ := hf.memory
              exact ⟨ps, ids, b, hpins' _ (by simp) _ hm⟩
          have hrange : rangeIsEmpty cLo cHi = false := by simpa using hempty
          cases node with
          | leaf es =>
            dsimp only
            rw [rangeOf_of_nonempty es hrange]
            exact hnext e' _ he' hok
          | internal ps' ids' b' =>
            have hwm : e'.store.watermark = e.store.watermark := he'.reading.later.watermark
            have hchildOk : FrameOk file e'.store ⟨child, cLo, cHi, 0, OrdMap.empty⟩ oc :=
              ⟨⟨ps', ids', b', hmem'⟩, he'.reading.later.offset _ _ hoc, hrange⟩
            cases hok with
            | cons hf hrest' =>
              have hok' : FrameOk file e'.store { frame with nextChild := frame.nextChild + 1 } o :=
                ⟨hf.memory, hf.offset, hf.range⟩
              have hcost' :
                restCost file e'.store.watermark oc 0 + (restCost file e'.store.watermark o
                  (frame.nextChild + 1) +
                  scanCost file e'.store.watermark rest offsets) < n := by
                rw [hwm, ← walkCost_eq]
                omega
              exact he'.ends
                ((ih he'.same (by simp) (.cons hchildOk (.cons hok' hrest')) hcost').mono
                (fun _ _ h => he'.trans h) fun _ _ h => h)

end Walks

/-- Calls that change nothing but the cache and the trace. -/
def DiskOp.IsRead : DiskOp → Prop
  | .op (.get _) => True
  | .op (.scan _ _) => True
  | .loadAll => True
  | .height => True
  | _ => False

section Calls
variable [Crc32Fast] {π V : Type} [Vfs V] {file : List Byte} {e e' : DiskEngine π V} {offset : ℕ}

section Steps
variable [ExactReads V]

lemma Browsing.record (he : Browsing file e e) (f : Recorder → Recorder) :
    Browsing file e { e with trace := f e.trace } := ⟨he.reading, rfl⟩

lemma lookup_charted (fuel : ℕ) (key : Key) (he : Browsing file e e)
    (hroot : slotOffset e.store.slots e.root = some offset)
    (hf : offset < fuel) :
    Ends (Engine.lookup fuel key) e (fun _ e' => Browsing file e e') (Fails file e) := by
  have he' := he.record fun r => r.get key
  have := getLoop_charted key fuel none he'.same hroot hf
  exact he'.ends (this.mono (fun _ _ h => he'.trans h) fun _ _ h => h)

lemma scan_charted (fuel : ℕ) (lo hi : Bound) (he : Browsing file e e)
    (hroot : slotOffset e.store.slots e.root = some offset)
    (hf : walkCost file e.store.watermark offset < fuel) :
    Ends (Engine.scan fuel lo hi) e (fun _ e' => Browsing file e e') (Fails file e) := by
  have he' := he.record fun r => r.scan lo hi
  unfold Engine.scan Engine.scanOr Ends
  rw [Engine.record, run_modify_bind]
  split_ifs with hempty
  · exact he'
  have hrange : rangeIsEmpty lo hi = false := by simpa using hempty
  rw [run_get_bind]
  refine he'.ends (visit_charted he'.same hroot [] fun node e₁ he₁ hmem hr _ => ?_)
  have hb := he'.trans he₁
  cases node with
  | leaf es =>
    dsimp only
    rw [rangeOf_of_nonempty es hrange]
    exact .of_ok rfl hb
  | internal ps ids b =>
    have hframe : FrameOk file e₁.store ⟨e.root, lo, hi, 0, OrdMap.empty⟩ offset :=
      ⟨⟨ps, ids, b, hmem⟩, he₁.reading.later.offset _ _ hroot, hrange⟩
    have hcost : restCost file e₁.store.watermark offset 0 + 0 < fuel := by
      rw [← walkCost_eq, he₁.reading.later.watermark]
      exact hf
    exact he₁.ends ((scanLoop_charted fuel he₁.same (by simp) (.cons hframe .nil) hcost).mono
      (fun _ _ h => hb.trans h)
      fun _ _ h => h)

lemma loadAll_charted (fuel : ℕ) (he : Browsing file e e)
    (hroot : slotOffset e.store.slots e.root = some offset)
    (hf : walkCost file e.store.watermark offset < fuel) :
    Ends (Engine.loadAll fuel) e (fun _ e' => Browsing file e e') (Fails file e) := by
  have hstack : Stacked e.store [e.root] [offset] := .cons hroot .nil
  exact loadLoop_charted fuel he hstack (by simpa using hf)

/-- Enough fuel for any read of the tree below an offset. -/
def readFuel (file : List Byte) (watermark offset : ℕ) :
    ℕ := walkCost file watermark offset + offset + 1

variable [FlushPolicy π]

lemma step_charted {fuel : ℕ} {op : DiskOp} (hop : op.IsRead) (he : Browsing file e e)
    (hroot : slotOffset e.store.slots e.root = some offset)
    (hf : readFuel file e.store.watermark offset ≤ fuel) :
    Ends (DiskEngine.step fuel op) e (fun _ e' => Browsing file e e') (Fails file e) := by
  unfold readFuel at hf
  match op, hop with
  | .op (.get key), _ =>
    exact (lookup_charted fuel key he hroot (by omega)).bind fun _ _ h => .of_ok rfl h
  | .op (.scan lo hi), _ =>
    exact (scan_charted fuel lo hi he hroot (by omega)).bind fun _ _ h => .of_ok rfl h
  | .loadAll, _ => exact (loadAll_charted fuel he hroot (by omega)).bind fun _ _ h => .of_ok rfl h
  | .height, _ =>
    exact (heightLoop_charted fuel 1 he hroot (by omega)).bind fun _ _ h => .of_ok rfl h

lemma runCalls_charted {fuel : ℕ} {ops : List DiskOp} (hops : ∀ op ∈ ops, op.IsRead)
    (he : Browsing file e e)
    (hroot : slotOffset e.store.slots e.root = some offset)
    (hf : readFuel file e.store.watermark offset ≤ fuel) :
    ∃ replies e', runCalls (DiskEngine.step fuel) ops e = .ok (replies, e') := by
  induction ops generalizing e with
  | nil => exact ⟨[], e, rfl⟩
  | cons op ops ih =>
    have hgo : ∀ e₁, Browsing file e e₁ → ∃ replies e', runCalls (DiskEngine.step fuel) ops e₁ = .ok
      (replies, e') := by
      intro e₁ h₁
      refine ih (fun op' hop' => hops op' (by simp [hop'])) h₁.same ?_ ?_
      · rw [h₁.root]
        exact h₁.reading.later.offset _ _ hroot
      · rw [h₁.reading.later.watermark]
        exact hf
    have hstep := step_charted (hops op (by simp)) he hroot hf
    unfold Ends at hstep
    unfold runCalls
    cases hrun : DiskEngine.step fuel op e with
    | ok r e₁ =>
      rw [hrun] at hstep
      obtain ⟨replies, e', h⟩ := hgo e₁ hstep
      exact ⟨_, e', by dsimp only; rw [h]; rfl⟩
    | error f e₁ =>
      rw [hrun] at hstep
      obtain ⟨⟨x, rfl⟩, h₁⟩ := hstep
      obtain ⟨replies, e', h⟩ := hgo e₁ h₁
      exact ⟨_, e', by dsimp only; rw [h]; rfl⟩

end Steps

variable [Reliable V]

omit [Vfs V] [Reliable V] in
lemma charted_recovered (v : V) (budget : Option ℕ) (policy : π) (sb : Superblock)
    (nextGeneration : ℕ) (file : List Byte) :
    Charted file (DiskEngine.recovered v budget policy sb nextGeneration).store := by
  refine ⟨⟨rfl, rfl, by simp [DiskEngine.recovered, Cache.new], fun x hx => ?_⟩,
    sb.watermark.toNat_lt, fun id x hx => ?_,
    fun o id ho => ?_⟩
  · rw [List.mem_singleton.mp hx]
    trivial
  · exact Or.inl ⟨_, List.mem_singleton.mp (List.mem_of_getElem? hx)⟩
  · simp only [DiskEngine.recovered, OrdMap.get?_insert, OrdMap.get?_empty] at ho
    split_ifs at ho with h
    obtain rfl := Option.some.inj ho
    rw [h]
    rfl

/-- Whatever bytes a device holds, the engine opened on it can be read from: every call ends with a
result or a storage error, within a number of steps that the bytes determine. -/
theorem reads_end [FlushPolicy π] {budget : Option ℕ} {policy : π} {v : V}
    (ho : DiskEngine.openOn budget policy v = .ok e) :
    ∃ N, ∀ fuel ≥ N, ∀ ops : List DiskOp, (∀ op ∈ ops, op.IsRead) →
      ∃ replies e', runCalls (DiskEngine.step fuel) ops e = .ok (replies, e') := by
  obtain ⟨v', -, -, heq⟩ := openOn_eq budget policy v
  rw [ho] at heq
  cases hsel : selected (ExactReads.file v) with
  | error x =>
    rw [hsel] at heq
    cases heq
  | ok sb =>
    rw [hsel] at heq
    dsimp only at heq
    split_ifs at heq
    obtain rfl := Except.ok.inj heq
    have he : Browsing (ExactReads.file v')
      (DiskEngine.recovered v' budget policy sb (sb.generation.toNat + 1))
        (DiskEngine.recovered v' budget policy sb (sb.generation.toNat + 1)) :=
      ⟨⟨charted_recovered .., rfl, .refl _⟩, rfl⟩
    exact ⟨readFuel (ExactReads.file v') sb.watermark.toNat sb.rootOffset.toNat,
      fun fuel hf ops hops =>
      runCalls_charted hops he rfl hf⟩

end Calls

/-- A file with a superblock in its first slot and nothing in its second. -/
def imageOf [Crc32Fast] (sb : Superblock) (data : List Byte) : List Byte :=
  sb.encodeSlot ++ List.replicate superblockSlotSize 0 ++ data

lemma selected_imageOf [Crc32Fast] {sb : Superblock} {data : List Byte} (hm : sb.magic = magicBytes)
    (hv : sb.formatVersion = currentFormat) (hs : sb.Sane)
    (hw : sb.watermark.toNat ≤ dataStart + data.length) :
    selected (imageOf sb data) = .ok sb := by
  have hlen : (imageOf sb data).length = dataStart + data.length := by
    simp [imageOf, dataStart]
    omega
  have h₀ : slotStatus (imageOf sb data) (superblockSlot 0) = .valid sb := by
    have hslot :
      ((imageOf sb data).drop (superblockSlot 0)).take superblockSlotSize = sb.encodeSlot := by
      rw [imageOf, List.append_assoc]
      exact List.take_left' sb.encodeSlot_length
    unfold slotStatus
    rw [if_neg (by rw [hlen]; simp [superblockSlot, dataStart]; omega), hslot,
      decodeSlot_encodeSlot hm hv hs]
  have h₁ : slotStatus (imageOf sb data) (superblockSlot 1) = .invalid := by
    unfold slotStatus
    rw [if_neg (by rw [hlen]; simp [superblockSlot, dataStart]; omega)]
    apply decodeSlot_of_head
    have hslot :
      (imageOf sb data).drop (superblockSlot 1) = List.replicate superblockSlotSize 0 ++ data := by
      rw [imageOf, List.append_assoc]
      exact List.drop_left' (by rw [sb.encodeSlot_length]; rfl)
    rw [hslot]
    have hhead :
      ((List.replicate superblockSlotSize (0 : Byte) ++ data).take superblockSlotSize).head? = some
        0 := rfl
    rw [hhead]
    decide
  unfold selected candidates
  rw [h₀, h₁]
  simp [Candidates.consider, Candidates.select, hlen, hw]

/-- The superblock of a file whose root record is eight zero bytes. -/
def Superblock.bare (generation lastSeq : UInt64) : Superblock :=
  ⟨magicBytes, currentFormat, ⟨2, 1, 1⟩, lastSeq, generation, 8192, 8200⟩

lemma selected_bare [Crc32Fast] (generation lastSeq : UInt64) :
    selected (imageOf (Superblock.bare generation lastSeq) (List.replicate 8 0)) = .ok
      (Superblock.bare generation lastSeq) :=
  selected_imageOf rfl rfl
    (show dataStart ≤ (8200 : UInt64).toNat ∧ dataStart ≤ (8192 : UInt64).toNat ∧
      (8192 : UInt64).toNat ≤ (8200 : UInt64).toNat - recordHeaderSize ∧
        Params.Legal ⟨2, 1, 1⟩ by decide)
    (show (8200 : UInt64).toNat ≤ dataStart + 8 by decide)

/-- A leaf record and behind it an inner one that has the leaf three times, under pivots that are
out of order. -/
def sharedData : List Byte :=
  @encodeRecord crc32Ieee (encodeNode (.leaf (OrdMap.ofList [([1], ⟨1, [7]⟩), ([5], ⟨2, [8]⟩)]))) ++
    @encodeRecord crc32Ieee (encodeNode (.internal [[9], [3]] [8192, 8192, 8192] OrdMap.empty))

def Superblock.shared : Superblock := ⟨magicBytes, currentFormat, ⟨2, 1, 1⟩, 2, 1, 8264, 8342⟩

@[irreducible] def sharedVfs :
    FaultyVfs := FaultyVfs.fromImage (@imageOf crc32Ieee Superblock.shared sharedData)

@[irreducible] def sharedEngine (budget : Option ℕ) : DiskEngine GreedyFullest FaultyVfs :=
  DiskEngine.recovered
    { sharedVfs with view := resize sharedVfs.view 8342, log := sharedVfs.log ++ [.setLen 8342] }
      budget ⟨⟩
    Superblock.shared 2

lemma openOn_shared (budget : Option ℕ) :
    @DiskEngine.openOn _ _ _ crc32Ieee budget (⟨⟩ : GreedyFullest) sharedVfs = .ok
      (sharedEngine budget) := by
  let _ := crc32Ieee
  have hlen : sharedData.length = 150 := by decide +kernel
  have hsel : selected sharedVfs.view = .ok Superblock.shared := by
    unfold sharedVfs
    refine selected_imageOf rfl rfl (show dataStart ≤ (8342 : UInt64).toNat ∧
      dataStart ≤ (8264 : UInt64).toNat ∧
      (8264 : UInt64).toNat ≤ (8342 : UInt64).toNat - recordHeaderSize ∧
        Params.Legal ⟨2, 1, 1⟩ by decide) ?_
    rw [hlen]
    decide
  rw [openOn_faulty budget _ hsel, if_pos (by decide)]
  unfold sharedEngine
  rfl

/-- A device with a shared child and pivots out of order. -/
theorem reads_end_shared : @DiskEngine.openOn _ _ _ crc32Ieee (some 0)
    (⟨⟩ : GreedyFullest) sharedVfs = .ok (sharedEngine (some 0)) ∧
    ∃ N, ∀ fuel ≥ N, ∀ ops : List DiskOp, (∀ op ∈ ops, op.IsRead) →
      ∃ replies e', runCalls (@DiskEngine.step _ _ _ crc32Ieee _ fuel) ops (sharedEngine (some 0)) =
        .ok (replies, e') := by
  let _ := crc32Ieee
  exact ⟨openOn_shared _, reads_end (openOn_shared _)⟩

section Counters
variable [Crc32Fast] {π V : Type} [Vfs V] [Reliable V]

/-- The checks of loading on a record at an offset. -/
def DiskNode.Passes (offset : ℕ) : DiskNode → Prop
  | .leaf _ => True
  | .internal pivots children _ => children.length = pivots.length + 1 ∧
      ∀ c ∈ children, dataStart ≤ c.toNat ∧ c.toNat < offset

def Loads (file : List Byte) (watermark offset : ℕ) : Prop :=
  ∃ node len, parseRecord file watermark offset = .ok (node, len) ∧ node.Passes offset

/-- Opening ends with an engine or a storage error, no counter overflows on the way, and the
counters of the engine go on from those of the superblock it stands at. -/
def CountsOn (budget : Option ℕ) (policy : π) (v : V) : Prop :=
  match DiskEngine.openOn budget policy v with
  | .error f => ∃ x, f = .storage x
  | .ok e =>
    ∃ sb, selected (ExactReads.file v) = .ok sb ∧
      DiskEngine.generation e = .ok sb.generation.toNat ∧
      (∀ rootOffset watermark, sb.generation <
        (DiskStore.newSuperblock e.params e.nextSeq e.store.nextGeneration rootOffset
          watermark).generation) ∧
      ∀ op, Ends (DiskEngine.assignSeq op) e (fun seq _ => sb.lastSeq < seq)
        (fun f _ => ∃ x, f = .storage x)

/-- The counters of a superblock leave room, as far as they are used: the generation always, the
last sequence number if the root can be loaded. -/
def Superblock.Countable (sb : Superblock) (file : List Byte) : Prop :=
  sb.generation.toNat + 1 < 2 ^ 64 ∧ (sb.lastSeq.toNat + 1 < 2 ^ 64 ∨
    ¬ Loads (resize file sb.watermark.toNat) sb.watermark.toNat sb.rootOffset.toNat)

omit [Vfs V] [Reliable V] in
/-- The checks decide whether the children are interned. -/
lemma internChildren_passes {file : List Byte} {s : DiskStore V} (hs : Charted file s) (offset : ℕ)
    (node : DiskNode) :
    (node.Passes offset ∧ ∃ n s', DiskStore.internChildren offset node s = .ok n s') ∨
      (¬ node.Passes offset ∧ ∃ x, DiskStore.internChildren offset node s = .error
        (.storage x) s) := by
  cases node with
  | leaf entries => exact Or.inl ⟨trivial, _, _, rfl⟩
  | internal pivots children buffer =>
    unfold DiskStore.internChildren DiskNode.Passes
    dsimp only
    by_cases ha : children.length = pivots.length + 1
    · rw [if_neg (not_not.mpr ha)]
      cases hfind :
        children.find? (fun c => decide (c.toNat < dataStart) || decide (offset ≤ c.toNat)) with
      | some child =>
        have hbad := List.find?_some hfind
        have hmem := List.mem_of_find?_eq_some hfind
        refine Or.inr ⟨fun hall => ?_, _, rfl⟩
        have := hall.2 child hmem
        simp only [Bool.or_eq_true, decide_eq_true_eq] at hbad
        omega
      | none =>
        obtain ⟨ids, more, offsets, hrun, -, -⟩ := allocChildren_charted hs children
        refine Or.inl ⟨⟨ha, fun c hc => ?_⟩, _, _, run_bind_ok hrun⟩
        have := List.find?_eq_none.mp hfind c hc
        simp only [Bool.or_eq_true, decide_eq_true_eq, not_or, not_lt, not_le] at this
        exact this
    · rw [if_pos ha]
      exact Or.inr ⟨fun h => ha h.1, _, rfl⟩

/-- A slot that has not been read can be loaded if its record loads, and only then. -/
lemma ensureLoaded_loads {file : List Byte} {s : DiskStore V} {id : NodeId} {offset : ℕ}
    (hs : Charted file s)
    (hfile : ExactReads.file s.vfs = file) (hx : s.slots[id]? = some (.onDisk offset))
    (pins : List NodeId) :
    (Loads file s.watermark offset ∧ ∃ s', DiskStore.ensureLoaded id pins s = .ok () s') ∨
      (¬ Loads file s.watermark offset ∧ ∃ x s', DiskStore.ensureLoaded id pins s = .error
        (.storage x) s') := by
  obtain ⟨v₁, hsame, hread⟩ := DiskStore.readRecord_exact s offset hs.watermark
  rw [hfile] at hread
  have hs₁ : Charted file { s with vfs := v₁ } :=
    ⟨⟨hs.tidy.bytes, hs.tidy.resident, hs.tidy.lru, hs.tidy.backed⟩, hs.watermark,
      hs.slots, hs.offsets⟩
  cases hp : parseRecord file s.watermark offset with
  | error x =>
    rw [hp] at hread
    refine Or.inr ⟨?_, x, _, DiskStore.ensureLoaded_unread pins hx hread⟩
    rintro ⟨node, len, hnode, -⟩
    rw [hp] at hnode
    cases hnode
  | ok r =>
    obtain ⟨node, len⟩ := r
    rw [hp] at hread
    rcases internChildren_passes hs₁ offset node with ⟨hn, n, s₂, hint⟩ | ⟨hn, x, hint⟩
    · have hends := internChildren_charted hs₁ hp
      unfold Ends at hends
      rw [hint] at hends
      obtain ⟨⟨more, offsets, rfl⟩, hs₂, -⟩ := hends
      have hx₂ : (s.slots ++ more)[id]? = some (.onDisk offset) := by
        rw [List.getElem?_append_left (List.getElem?_eq_some_iff.mp hx).1, hx]
      obtain ⟨s', hrun, -⟩ := DiskStore.ensureLoaded_miss pins hx hread hint hx₂ hs₂.tidy
      exact Or.inl ⟨⟨node, len, hp, hn⟩, s', hrun⟩
    · refine Or.inr ⟨?_, x, _, DiskStore.ensureLoaded_refused pins hx hread hint⟩
      rintro ⟨node', len', hnode, hn'⟩
      rw [hp] at hnode
      cases hnode
      exact hn hn'

omit [Crc32Fast] [Vfs V] [Reliable V] in
lemma stamp_ends (op : OpKind2) (e : DiskEngine π V) :
    if e.nextSeq.toNat + 1 < 2 ^ 64 then Ends (Engine.stamp op) e (fun seq _ => e.nextSeq < seq)
    (fun _ _ => False)
    else Engine.stamp op e = .error .overflow e := by
  unfold Engine.stamp Ends
  rw [run_get_bind]
  split_ifs with h
  · change e.nextSeq < e.nextSeq + 1
    rw [UInt64.lt_iff_toNat_lt, UInt64.toNat_succ h]
    exact Nat.lt_succ_self _
  · rfl

lemma assignSeq_recovered (v : V) (budget : Option ℕ) (policy : π) (sb : Superblock)
    (nextGeneration : ℕ) (op : OpKind2) :
    Ends (DiskEngine.assignSeq op) (DiskEngine.recovered v budget policy sb nextGeneration)
    (fun seq _ => sb.lastSeq < seq)
      (fun f _ => ∃ x, f = .storage x) ↔
    (sb.lastSeq.toNat + 1 < 2 ^ 64 ∨
      ¬ Loads (ExactReads.file v) sb.watermark.toNat sb.rootOffset.toNat) := by
  let e := DiskEngine.recovered v budget policy sb nextGeneration
  unfold Ends DiskEngine.assignSeq
  rw [run_get_bind]
  rcases ensureLoaded_loads (charted_recovered v budget policy sb nextGeneration _) rfl
    (show e.store.slots[0]? = some (.onDisk sb.rootOffset.toNat) from rfl)
      [] with ⟨hl, s', hrun⟩ | ⟨hl, x, s', hrun⟩
  · have hload : Engine.ensureLoaded e.root [] e = .ok () (e.on s') := Engine.run_onStore hrun
    rw [run_bind_ok hload]
    have hstamp := stamp_ends op (e.on s')
    by_cases hlast : sb.lastSeq.toNat + 1 < 2 ^ 64
    · rw [if_pos (show (e.on s').nextSeq.toNat + 1 < 2 ^ 64 from hlast)] at hstamp
      refine iff_of_true ?_ (Or.inl hlast)
      exact hstamp.mono (fun _ _ h => h) fun _ _ h => h.elim
    · rw [if_neg (show ¬ (e.on s').nextSeq.toNat + 1 < 2 ^ 64 from hlast)] at hstamp
      refine iff_of_false ?_ (not_or.mpr ⟨hlast, not_not.mpr hl⟩)
      rw [hstamp]
      rintro ⟨x, hx⟩
      cases hx
  · have hload : Engine.ensureLoaded e.root [] e = .error (.storage x) (e.on s') :=
      Engine.run_onStore_error hrun
    rw [run_bind_error hload]
    exact iff_of_true ⟨x, rfl⟩ (Or.inr hl)

lemma not_countsOn {budget : Option ℕ} {policy : π} {v : V} {sb : Superblock}
    (hsel : selected (ExactReads.file v) = .ok sb) (hg : ¬ sb.generation.toNat + 1 < 2 ^ 64) :
    ¬ CountsOn budget policy v := by
  intro h
  obtain ⟨v', -, -, heq⟩ := openOn_eq budget policy v
  rw [hsel] at heq
  dsimp only at heq
  rw [if_neg hg] at heq
  unfold CountsOn at h
  rw [heq] at h
  obtain ⟨x, hx⟩ := h
  cases hx

/-- Opening keeps its counters in range exactly where the superblock it selects leaves room for
them. -/
theorem openOn_countsOn_iff (budget : Option ℕ) (policy : π) (v : V) :
    CountsOn budget policy v ↔ ∀ sb, selected (ExactReads.file v) = .ok sb →
    sb.Countable (ExactReads.file v) := by
  obtain ⟨v', -, hfile, heq⟩ := openOn_eq budget policy v
  unfold CountsOn
  rw [heq]
  cases hsel : selected (ExactReads.file v) with
  | error x => simp
  | ok sb =>
    have hall :
      (∀ sb', Except.ok (ε := DiskError) sb = .ok sb' → sb'.Countable (ExactReads.file v)) ↔
        sb.Countable (ExactReads.file v) :=
          ⟨fun h => h sb rfl, fun h sb' hsb => by cases hsb; exact h⟩
    rw [hall]
    unfold Superblock.Countable
    by_cases hg : sb.generation.toNat + 1 < 2 ^ 64
    · have hseq := assignSeq_recovered v' budget policy sb (sb.generation.toNat + 1)
      rw [hfile sb hsel] at hseq
      simp only [hg, true_and]
      constructor
      · rintro ⟨sb', hsb', -, -, h⟩
        cases hsb'
        exact (hseq (.delete [])).mp (h (.delete []))
      · intro hcount
        refine ⟨sb, rfl, ?_, fun rootOffset watermark => ?_, fun op => (hseq op).mpr hcount⟩
        · exact if_pos (Nat.le_add_left 1 sb.generation.toNat)
        · rw [UInt64.lt_iff_toNat_lt]
          change sb.generation.toNat < (UInt64.ofNat (sb.generation.toNat + 1)).toNat
          rw [UInt64.toNat_ofNat_of_lt' hg]
          exact Nat.lt_succ_self _
    · simp only [hg, false_and, iff_false]
      rintro ⟨x, hx⟩
      cases hx

end Counters

def lastImage : List Byte :=
  @imageOf crc32Ieee (Superblock.bare 0xFFFFFFFFFFFFFFFF 0) (List.replicate 8 0)

/-- At the last generation there is no next one. -/
theorem openOn_last_generation :
    ¬ @CountsOn crc32Ieee GreedyFullest FaultyVfs _ _ none ⟨⟩ (FaultyVfs.fromImage lastImage) :=
  @not_countsOn crc32Ieee GreedyFullest FaultyVfs _ _ none ⟨⟩ (FaultyVfs.fromImage lastImage) _
    (@selected_bare crc32Ieee 0xFFFFFFFFFFFFFFFF 0) (lt_irrefl (2 ^ 64))

end Beetree
