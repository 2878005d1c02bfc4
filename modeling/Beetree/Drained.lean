import Beetree.Roundtrip

/-! Drains and commits.

A drain goes on from a clean node with an empty buffer to the messages further down, and dirties no
more than what it changes there. A commit that follows dirty nodes from the root then stops above
them. Where no drain comes through such a node, what was drained is what a commit writes. -/
namespace Beetree

section Ancestors
variable {V : Type} [Crc32Fast] {h : ℕ} {t : Live h} {s : Ideal} {i c : NodeId} {n : Node}
    {dirty : Bool} {rec : Option Record}

omit [Crc32Fast] in
/-- Where clean nodes have clean children, a parent is as dirty as its child. -/
lemma Live.Closed.parent (hc : Live.Closed t) (hF : Stored s (Live.foot t))
    (hi : (i, Slot.loaded n dirty rec) ∈ Live.foot t)
    (hcn : c ∈ n.children) {y : Slot} (hy : s.slots c = some y) (hd : y.dirty = true) :
    dirty = true := by
  induction h generalizing n dirty rec with
  | zero =>
    rcases t with ⟨id, d, dk, x⟩ | ⟨id, v⟩
    · induction x using Body.zeroCases with
      | hl es =>
        cases List.mem_singleton.mp hi
        cases hcn
    · cases List.mem_singleton.mp hi
  | succ h ih =>
    rcases t with ⟨id, d, dk, x⟩ | ⟨id, v⟩
    · induction x using Body.succCases with
      | hn ps cs b =>
        rcases List.mem_cons.mp hi with heq | hi
        · cases heq
          obtain ⟨x, hx, rfl⟩ := List.mem_map.mp hcn
          have hslot := (hF.kid hx).slots _ (Live.slot_mem_foot x)
          rw [hy] at hslot
          cases hslot
          by_contra hclean
          have hkid :
            x.dirty = false := Body.kidsClean_node.mp (hc.1 (Bool.eq_false_iff.mpr hclean)) x hx
          rw [Live.dirty_slot, hkid] at hd
          cases hd
        · obtain ⟨x, hx, hi⟩ := List.mem_flatMap.mp hi
          exact ih (Body.closed_node.mp hc.2 x hx) (hF.kid hx) hi hcn
    · cases List.mem_singleton.mp hi

def DiskStore.DirtyUpward (file : List Byte) (d : DiskStore V) : Prop :=
  ∀ (i c : NodeId) (x y : NodeSlot), Relation.ReflTransGen (d.Child file) i c →
    d.slots[i]? = some x → d.slots[c]? = some y →
    y.dirty = true → x.dirty = true

variable {π : Type} {file : V → List Byte} {r : DiskEngine π V} {e : Engine π Ideal}

lemma Follows.dirtyUpward (hr : Follows file r e t) (hc : Live.Closed t) :
    r.store.DirtyUpward (file r.store.vfs) := by
  intro i c x y hpath hx hy hd
  have hm := hr.alike.store
  induction hpath generalizing y with
  | refl =>
    rw [hx] at hy
    cases hy
    exact hd
  | @tail b c _ hstep ih =>
    obtain ⟨n, dirty, rec, hb, hcn⟩ := hr.child_iff.mp hstep
    obtain ⟨z, hz, hmatch⟩ := hm.slot hb
    refine ih z hz ?_
    have hyd := (hm.slot_of hy).dirty
    rw [hd] at hyd
    cases hcs : e.store.slots c with
    | none => simp [hcs] at hyd
    | some w =>
      rw [hcs] at hyd
      rw [hmatch.dirty]
      exact hc.parent hr.holds.stored (hr.holds.mem_foot (hm.bound b _ hb) hb) hcn hcs hyd.symm

end Ancestors

section Runs
variable {V : Type} [Vfs V] [Honest V] [Crc32Fast]

/-- The engines that come of creating a store, of calls and of opening the file again, where no
drain comes through a clean node with nothing of its own to pass on. -/
inductive DiskEngine.Conducted : {π : Type} → [FlushPolicy π] → DiskEngine π V → Prop
  | create {π : Type} [FlushPolicy π] (hπ : FlushPolicy.Legal π) {fuel : ℕ} {budget : Option ℕ}
    {params : Params} {policy : π}
      {v : V} {r : DiskEngine π V} :
      Honest.Idle v → DiskEngine.createOn fuel budget params policy v = .ok r → Conducted r
  | call {π : Type} [FlushPolicy π] {r r' : DiskEngine π V} :
    Conducted r → DiskEngine.Advances r r' → Conducted r'
  | reopen {π σ : Type} [FlushPolicy π] [FlushPolicy σ] (hσ : FlushPolicy.Legal σ)
    {r : DiskEngine π V} {r' : DiskEngine σ V}
      {budget : Option ℕ} {policy : σ} {v : V} : Conducted r → Honest.Idle v →
      Honest.file v = Honest.file r.store.vfs →
      DiskEngine.openOn budget policy v = .ok r' → Conducted r'

lemma DiskEngine.Conducted.connected {π : Type} [FlushPolicy π] {r : DiskEngine π V}
    (hr : r.Conducted) :
    FlushPolicy.Legal π ∧ DiskEngine.Connected r := by
  induction hr with
  | create hπ hv hc =>
    obtain ⟨batch, r₀, -, -, hs⟩ := sits_createOn hv hc
    exact ⟨hπ, _, _, _, _, _, _, hs,
      Live.Closed.commit (t := Live.fresh) ⟨fun _ => trivial, trivial⟩ _⟩
  | call _ hstep ih => exact ⟨ih.1, ih.2.run ih.1 (.single hstep)⟩
  | reopen hσ _ hv hfile ho ih =>
    obtain ⟨-, _, _, _, _, _, _, hs, -⟩ := ih
    exact ⟨hσ, _, _, _, _, _, _, (sits_openOn (hfile ▸ hs.durable) hv ho).1, trivial⟩

variable {π : Type} [FlushPolicy π] {r r₁ r₂ : DiskEngine π V}

/-- A drain from here comes through no clean node that has nothing to receive and no message of its
own but messages further down. -/
def DiskEngine.DrainSafe (r : DiskEngine π V) : Prop :=
  ∀ (h : ℕ) (T : Flagged h), DiskEngine.Shows Honest.file r T →
    T.DrainSafe (fun _ => False) none none

omit r₁ r₂ in
lemma DiskEngine.Conducted.runs (hr : r.Conducted) {fuel : ℕ} {ops : List DiskOp}
    (hops : ∀ op ∈ ops, op ≠ .op .drain)
    {replies : List DiskReply} {r' : DiskEngine π V}
    (hrun : runOps (DiskEngine.step fuel) ops r = .ok replies r') :
    r'.Conducted := by
  induction ops generalizing r replies with
  | nil =>
    cases hrun
    exact hr
  | cons op ops ih =>
    obtain ⟨reply, r₁, hstep, hrest⟩ := bind_eq_ok hrun
    obtain ⟨replies', r₂, hlater, hpure⟩ := bind_eq_ok (f := fun rs => pure (reply :: rs)) hrest
    cases hpure
    refine ih
      (hr.call ⟨op, Or.inl ⟨reply, fuel, fun _ hf => (DiskEngine.refines_step hf op).ok hstep⟩,
        fun heq => ?_⟩)
      (fun o ho => hops o (List.mem_cons_of_mem _ ho)) hlater
    exact absurd heq (hops op (List.mem_cons_self ..))

/-- In every run whose drains are safe, a node is dirty only below dirty ones; and a safe drain and
a commit leave nothing dirty, and a file that opens, under any budget and policy, as the drained
tree, node by node. -/
theorem drain_durable (hr : r.Conducted) :
    r.store.DirtyUpward (Honest.file r.store.vfs) ∧
    (r.DrainSafe → ∀ {fuel fuel' : ℕ} {stats : CommitStats}, DiskEngine.drain fuel r = .ok () r₁ →
      DiskEngine.commit fuel' r₁ = .ok stats r₂ → r₂.store.Clean ∧ ∃ (h : ℕ)
      (T : Flagged h), DiskEngine.Shows Honest.file r₁ T ∧
        T.Quiet ∧ DiskEngine.Shows Honest.file r₂ T.cleaned ∧ ∀ {σ : Type}
        (budget : Option ℕ) (policy : σ),
          (∃ r₃, DiskEngine.openOn budget policy
            (FaultyVfs.fromImage (Honest.file r₂.store.vfs)) = .ok r₃) ∧
          ∀ (v : V) (r₃ : DiskEngine σ V), Honest.Idle v →
          Honest.file v = Honest.file r₂.store.vfs →
            DiskEngine.openOn budget policy v = .ok r₃ →
            ∃ N, ∀ fuel ≥ N, Ends (Engine.loadAll fuel) r₃
              (fun _ r₄ => DiskEngine.Shows Honest.file r₄ T.cleaned) fun f _ =>
              Honest.Reports V f) := by
  obtain ⟨hπ, e, h, t, sb, D, prev, hs, hclosed⟩ := hr.connected
  refine ⟨hs.toFollows.dirtyUpward hclosed, fun hsafe fuel fuel' stats hdrain hcommit => ?_⟩
  have hsafe' : (DiskOp.op .drain).Safe false t := Or.inr fun _ => hsafe h _ hs.toFollows.shows
  obtain ⟨reply, e₁, h₁, t₁, N, hresp, -, hN⟩ := call_run (Honest.device (V := V))
    (fun _ hf => Honest.storage hf) hπ hs.holds
    (show DiskOp.op .drain ≠ .commit by simp) trivial hsafe'
  have hstep : DiskEngine.step fuel (.op .drain) r = .ok (.reply .done) r₁ := run_bind_ok hdrain
  obtain ⟨-, hs₁⟩ := (hN _ (le_max_right fuel N) r sb D prev hs).ok
    ((DiskEngine.refines_step (le_max_left fuel N) _).ok hstep)
  obtain ⟨hshow, hclean, ⟨m, hm⟩, hopen⟩ :=
    hs₁.commit_shows (hresp.evolves.closed rfl hclosed) hcommit
  refine ⟨hclean, h₁, Live.plain t₁, hs₁.toFollows.shows, hresp.quiet rfl, hshow,
    fun {σ} budget policy => ⟨?_, ?_⟩⟩
  · exact hm.saves.opens hm.generation budget policy
  · intro v r₃ hv hfile ho
    obtain ⟨⟨e₃, t₃, sb₃, D₃, prev₃, hs₃, hplain⟩, -⟩ := hopen hv hfile ho
    obtain ⟨e₄, t₄, M, hrun, hold, hopens, hfix, -, -⟩ := loadAll_run hs₃.holds
    refine ⟨M, fun fuel hf => ?_⟩
    have hS := diskSim (Honest.device (V := V)).toRecordReads
    refine (hs₃.reads Honest.device (hS.sims_loadAll (loadInv_browses e₃ t₃) fuel)
      (hrun fuel hf) hold hopens
      (congrArg (fun x => x.1) hfix)).mono ?_ fun _ _ h => h.1
    rintro - r₄ ⟨-, hs₄⟩
    rw [← hplain, ← hopens.plain]
    exact hs₄.toFollows.shows

end Runs
/-- Some insertions, committed, and a drain that comes through the clean root to the message further
down: the root stays clean above what it has changed, and the next commit writes nothing. -/
lemma DiskEngine.undrained : ∃ (r₀ r r₁ r₂ : DiskEngine GreedyFullest FaultyVfs)
    (replies : List DiskReply) (stats : CommitStats),
    @createOn _ _ _ crc32Ieee 40 none .tiny ⟨⟩ FaultyVfs.new = .ok r₀ ∧
    runOps (@step _ _ _ crc32Ieee _ 40)
    ([[10], [3], [10], [5]].map (fun key => .op (.mutate (.insert key [7]))) ++ [.commit]) r₀ =
      .ok replies r ∧
    @drain _ _ _ crc32Ieee _ 40 r = .ok () r₁ ∧
    @commit _ _ _ crc32Ieee 40 r₁ = .ok stats r₂ ∧ r₂.root = 5 ∧
    r₂.store.slots[5]? = some (.loaded (.internal [[5]] [2, 4] OrdMap.empty) false
      (some 8485) 61 0) ∧
    r₂.store.slots[4]? = some (.loaded (.internal [[10]] [3, 1] OrdMap.empty) true
      (some 8394) 87 0) := by
  have hruns :
    goesThrough (@createOn _ _ _ crc32Ieee 40 none .tiny (⟨⟩ : GreedyFullest) FaultyVfs.new)
      (runOps (@step _ _ _ crc32Ieee _ 40)
        ([[10], [3], [10], [5]].map (fun key => .op (.mutate (.insert key [7]))) ++ [.commit]))
      (runOps (@step _ _ _ crc32Ieee _ 40) [.op .drain])
        (runOps (@step _ _ _ crc32Ieee _ 40) [.commit])
      (fun _ _ r₂ => decide (r₂.root = 5) &&
        decide (r₂.store.slots[5]? = some (.loaded (.internal [[5]] [2, 4] OrdMap.empty) false
          (some 8485) 61 0)) &&
        decide (r₂.store.slots[4]? = some (.loaded (.internal [[10]] [3, 1] OrdMap.empty) true
          (some 8394) 87 0))) = true := by
    decide +kernel
  obtain ⟨r₀, r, r₁, r₂, replies, _, _, h₀, h, h₁, h₂, hcheck⟩ := goesThrough_eq_true hruns
  obtain ⟨_, _, hstep, hpure⟩ := bind_eq_ok h₁
  cases hpure
  obtain ⟨⟨⟩, _, hdrain, hpure⟩ := bind_eq_ok hstep
  cases hpure
  obtain ⟨_, _, hstep, hpure⟩ := bind_eq_ok h₂
  cases hpure
  obtain ⟨stats, _, hcommit, hpure⟩ := bind_eq_ok hstep
  cases hpure
  exact ⟨r₀, r, _, _, replies, stats, h₀, h, hdrain, hcommit, by simpa [and_assoc] using hcheck⟩

/-- What was drained need not have been committed after the next commit. -/
theorem drain_not_durable : ¬ ∀ (m : KvStore) (r r₁ r₂ : DiskEngine GreedyFullest FaultyVfs)
    (fuel : ℕ) (stats : CommitStats),
    @History FaultyVfs _ Reliable.honest crc32Ieee GreedyFullest _ m r →
    @DiskEngine.drain _ _ _ crc32Ieee _ fuel r = .ok () r₁ →
    @DiskEngine.commit _ _ _ crc32Ieee fuel r₁ = .ok stats r₂ → ∀ (i : NodeId) (x : NodeSlot),
      Relation.ReflTransGen (@DiskStore.Child FaultyVfs crc32Ieee r₂.store.vfs.view
        r₂.store) r₂.root i →
      r₂.store.slots[i]? = some x → x.dirty = false := by
  intro hall
  let _ := crc32Ieee
  let _ : Honest FaultyVfs := Reliable.honest
  obtain ⟨r₀, r, r₁, r₂, replies, stats, h₀, h, hdrain, hcommit, hroot, htop, hbelow⟩ :=
    DiskEngine.undrained
  have hr := (History.create GreedyFullest.legal FaultyVfs.idle_new h₀).runs h
  have hchild : DiskStore.Child r₂.store.vfs.view r₂.store r₂.root 4 :=
    .loaded (hroot ▸ htop) (by decide)
  cases hall _ r r₁ r₂ 40 stats hr hdrain hcommit 4 _ (.single hchild) hbelow

lemma DiskEngine.drainSafe_of_dirty_root {π V : Type} [Vfs V] [Honest V] [Crc32Fast]
    {r : DiskEngine π V} {id c c' : NodeId}
    {p : Key} {b : Buffer} {es : Entries} {dirty : Bool} {off off' : Option ℕ}
    {bytes bytes' tick tick' : ℕ}
    (hroot : r.root = id)
    (htop : r.store.slots[id]? = some (.loaded (.internal [p] [c, c'] b) true off bytes tick))
    (hleaf : r.store.slots[c]? = some (.loaded (.leaf es) dirty off' bytes' tick')) :
    r.DrainSafe := by
  intro h T hT
  subst hroot
  cases h with
  | zero =>
    rcases hT with ⟨off, bytes, tick, hx⟩ | ⟨o, hx, -⟩
    · rw [htop] at hx
      cases hx
    · rw [htop] at hx
      cases hx
  | succ h =>
    induction T using Tree.succCases with
    | hn a ps xs b' =>
      rcases hT with ⟨cs, off, bytes, tick, hx, hkids⟩ | ⟨o, cs, len, hx, -⟩
      · rw [htop] at hx
        cases hx
        obtain ⟨x, xs, hx, hxs, rfl⟩ := List.forall₂_cons_left_iff.mp hkids
        obtain ⟨y, xs, hy, hnil, rfl⟩ := List.forall₂_cons_left_iff.mp hxs
        cases hnil
        cases h with
        | zero => exact ⟨Or.inr (Or.inl rfl), Or.inr ⟨⟨by simp, by simp⟩, trivial, trivial⟩⟩
        | succ h =>
          rcases hx with ⟨cs, off, bytes, tick, hx, -⟩ | ⟨o, cs, len, hx, -⟩
          · rw [hleaf] at hx
            cases hx
          · rw [hleaf] at hx
            cases hx
      · rw [htop] at hx
        cases hx

/-- A message above clean leaves is drained. -/
theorem drain_durable_resumed : ∃ (r r₁ r₂ : DiskEngine GreedyFullest FaultyVfs)
    (stats : CommitStats),
    r.store.slots[2]? = some
      (.loaded (.internal [[10]] [0, 1] (OrdMap.empty.insert [5] (.put 3 [7]))) true
        (some 8304) 53 0) ∧
    @DiskEngine.drain _ _ _ crc32Ieee _ 40 r = .ok () r₁ ∧
    @DiskEngine.commit _ _ _ crc32Ieee 40 r₁ = .ok stats r₂ ∧
    @DiskStore.DirtyUpward FaultyVfs crc32Ieee r.store.vfs.view r.store ∧ r₂.store.Clean ∧
    ∃ (h : ℕ) (T : Flagged h), @DiskEngine.Shows _ _ crc32Ieee _ (fun v => v.view) r₁ T ∧ T.Quiet ∧
      @DiskEngine.Shows _ _ crc32Ieee _ (fun v => v.view) r₂ T.cleaned ∧
      ∃ r₃ : DiskEngine GreedyFullest FaultyVfs,
        @DiskEngine.openOn _ _ _ crc32Ieee (some 100) ⟨⟩ (.fromImage r₂.store.vfs.view) = .ok r₃ ∧
        ∃ N, ∀ fuel ≥ N, Ends (@Engine.loadAll _ _ (@DiskStore.instNodeStore _ _ crc32Ieee) fuel) r₃
          (fun _ r₄ => @DiskEngine.Shows _ _ crc32Ieee _ (fun v => v.view) r₄ T.cleaned)
          fun _ _ => False := by
  let _ := crc32Ieee
  let _ : Honest FaultyVfs := Reliable.honest
  have hruns : goesThrough (DiskEngine.createOn 40 none .tiny (⟨⟩ : GreedyFullest) FaultyVfs.new)
      (runOps (DiskEngine.step 40) ([[10], [3]].map (fun key => .op (.mutate (.insert key [7]))) ++
        [.commit, .op (.mutate (.insert [5] [7]))]))
      (runOps (DiskEngine.step 40) [.op .drain]) (runOps (DiskEngine.step 40) [.commit])
      (fun r _ _ => decide (r.root = 2) &&
        decide (r.store.slots[2]? = some
          (.loaded (.internal [[10]] [0, 1] (OrdMap.empty.insert [5] (.put 3 [7]))) true
            (some 8304) 53 0)) &&
        decide (r.store.slots[0]? = some (.loaded (.leaf (OrdMap.empty.insert [3] ⟨2, [7]⟩)) false
          (some 8212) 46 0))) = true := by
    decide +kernel
  obtain ⟨r₀, r, r₁, r₂, replies, _, _, h₀, h, h₁, h₂, hcheck⟩ := goesThrough_eq_true hruns
  simp only [Bool.and_eq_true, decide_eq_true_eq, and_assoc] at hcheck
  obtain ⟨hroot, htop, hleaf⟩ := hcheck
  obtain ⟨_, _, hstep, hpure⟩ := bind_eq_ok h₁
  cases hpure
  obtain ⟨⟨⟩, _, hdrain, hpure⟩ := bind_eq_ok hstep
  cases hpure
  obtain ⟨_, _, hstep, hpure⟩ := bind_eq_ok h₂
  cases hpure
  obtain ⟨stats, _, hcommit, hpure⟩ := bind_eq_ok hstep
  cases hpure
  have hr :
    r.Conducted :=
    (DiskEngine.Conducted.create GreedyFullest.legal FaultyVfs.idle_new h₀).runs (by decide) h
  have hsafe : r.DrainSafe := DiskEngine.drainSafe_of_dirty_root hroot htop hleaf
  obtain ⟨hup, hdurable⟩ := drain_durable hr
  obtain ⟨hclean, n, T, hshow, hquiet, hshow', hopens⟩ := hdurable hsafe hdrain hcommit
  obtain ⟨⟨r₃, hopen⟩, hload⟩ := hopens (some 100) (⟨⟩ : GreedyFullest)
  exact ⟨r, _, _, stats, htop, hdrain, hcommit, hup, hclean, n, T, hshow, hquiet, hshow', r₃, hopen,
    hload _ r₃ (FaultyVfs.idle_fromImage _) rfl hopen⟩

end Beetree
