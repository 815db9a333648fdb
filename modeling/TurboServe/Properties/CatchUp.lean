import TurboServe.Lib.Related
import TurboServe.Spec.Drafter
import TurboServe.System.Pool
import TurboServe.Invariants.Schedule

/-!
# The draft catch-up loop ends without overcommitting

A pass feeds the mirrors no more tokens than the budget and takes no more blocks than the pool
can serve, whatever it starves on the way; every pass that goes on leaves less to feed, and
the pass that does not leaves no row behind but a retired one.
-/

namespace TurboServe.Spec

open TurboServe.Core

variable {D : Type} [DecidableEq D] {m : BlockManager D}

/-! ## §1  Planning a pass -/

omit [DecidableEq D] in
theorem fitWant_le {mirror : Sequence} {free : ℤ} {n : ℕ} : fitWant m mirror free n ≤ n := by
  induction n with
  | zero => exact le_rfl
  | succ n ih =>
      rw [fitWant]
      split
      · exact ih.trans n.le_succ
      · exact le_rfl

omit [DecidableEq D] in
theorem fitWant_fits {mirror : Sequence} {free : ℤ} {n : ℕ} (h : fitWant m mirror free n ≠ 0) :
    (mirrorBlocks m mirror (fitWant m mirror free n) : ℤ) ≤ free := by
  induction n with
  | zero => exact absurd rfl h
  | succ n ih =>
      rw [fitWant] at h ⊢
      split
      · rename_i hmore
        rw [if_pos hmore] at h
        exact ih h
      · rename_i hfits
        exact not_lt.mp hfits

/-- The tokens a plan feeds. -/
def planned (plan : List (Row × ℕ)) : ℕ := (plan.map (·.2)).sum

/-- The blocks it takes. -/
def taken (m : BlockManager D) (plan : List (Row × ℕ)) : ℕ :=
  (plan.map fun p => if p.2 = 0 then 0 else mirrorBlocks m p.1.mirror p.2).sum

/-- What no pass changes of a row: whose it is, and the tokens its mirror is to hold. -/
def Row.label (row : Row) : ℕ × SeqId × List TokenId :=
  (row.index, row.mirror.seqId, row.mirror.tokenIds)

/-- A row of a plan: fed within its backlog, passed over, or retired. -/
structure PlannedRow (row : Row) (p : Row × ℕ) : Prop where
  label_eq : p.1.label = row.label
  mirror_eq : p.1.mirror = row.mirror
  budget : p.1 = row ∨ (p.1 = { row with budget := 0 } ∧ p.2 = 0)
  within : p.2 ≤ row.backlog
  fed_pending : p.2 ≠ 0 → row.pending = true

omit [DecidableEq D] in
theorem planPass_spec (rows : List Row) {budget reserved : ℕ}
    (hreserved : reserved ≤ m.allocator.numAllocatable) :
    List.Forall₂ PlannedRow rows (planPass m rows budget reserved) ∧
      planned (planPass m rows budget reserved) ≤ budget ∧
      taken m (planPass m rows budget reserved) + reserved ≤ m.allocator.numAllocatable ∧
      (0 < budget → planned (planPass m rows budget reserved) = 0 →
        ∀ p ∈ planPass m rows budget reserved, p.1.pending = false) := by
  induction rows generalizing budget reserved with
  | nil =>
      refine ⟨.nil, Nat.zero_le _, ?_, fun _ _ p hp => absurd hp List.not_mem_nil⟩
      change 0 + reserved ≤ _
      omega
  | cons row rows ih =>
      rw [planPass]
      split
      · rename_i hskip
        obtain ⟨hrows, hplanned, htaken, hdone⟩ := @ih budget reserved hreserved
        refine ⟨.cons ⟨rfl, rfl, .inl rfl, Nat.zero_le _, fun h => absurd rfl h⟩ hrows, ?_, ?_, ?_⟩
        · change 0 + planned _ ≤ budget
          omega
        · change 0 + taken m _ + reserved ≤ _
          omega
        · intro hbudget hnone p hp
          rcases List.mem_cons.mp hp with rfl | hp
          · exact hskip.resolve_right hbudget.ne'
          · refine hdone hbudget ?_ p hp
            change 0 + planned _ = 0 at hnone
            omega
      rename_i hpending
      push Not at hpending
      dsimp only
      split
      · rename_i hzero
        obtain ⟨hrows, hplanned, htaken, hdone⟩ := @ih budget reserved hreserved
        refine ⟨.cons ⟨rfl, rfl, .inr ⟨rfl, rfl⟩, Nat.zero_le _, fun h => absurd rfl h⟩ hrows,
          ?_, ?_, ?_⟩
        · change 0 + planned _ ≤ budget
          omega
        · change 0 + taken m _ + reserved ≤ _
          omega
        · intro hbudget hnone p hp
          rcases List.mem_cons.mp hp with rfl | hp
          · exact decide_eq_false fun h => absurd h.1 (lt_irrefl 0)
          · refine hdone hbudget ?_ p hp
            change 0 + planned _ = 0 at hnone
            omega
      · rename_i hwant
        have hle : fitWant m row.mirror (m.allocator.numAllocatable - reserved)
            (min budget row.backlog) ≤ min budget row.backlog := fitWant_le
        have hfits := fitWant_fits hwant
        generalize fitWant m row.mirror (m.allocator.numAllocatable - reserved)
          (min budget row.backlog) = want at hwant hle hfits
        have hroom : reserved + mirrorBlocks m row.mirror want ≤ m.allocator.numAllocatable := by
          omega
        obtain ⟨hrows, hplanned, htaken, -⟩ := @ih (budget - want) _ hroom
        refine ⟨.cons ⟨rfl, rfl, .inl rfl, hle.trans (min_le_right _ _), fun _ => ?_⟩ hrows, ?_, ?_, ?_⟩
        · exact Bool.not_eq_false _ ▸ hpending.1
        · change want + planned _ ≤ budget
          have := hle.trans (min_le_left _ _)
          omega
        · change (if want = 0 then 0 else mirrorBlocks m row.mirror want) + taken m _ + reserved ≤ _
          rw [if_neg hwant]
          omega
        · intro _ hnone
          change want + planned _ = 0 at hnone
          omega

/-! ## §2  Packing what is planned -/

/-- The row after it is fed: its mirror has its tokens and `n` more of them computed. -/
structure FedRow (p : Row × ℕ) (row : Row) : Prop where
  label_eq : row.label = p.1.label
  budget_eq : row.budget = p.1.budget
  numTokens_eq : row.mirror.numTokens = p.1.mirror.numTokens
  computed_eq : row.mirror.numComputedTokens = p.1.mirror.numComputedTokens + p.2

/-- The pool is consistent, whoever holds its blocks, and has the mirrors on record. -/
structure Mirrored (m : BlockManager D) (rows : List Row) : Prop where
  blockSize_pos : 0 < m.blockSize
  pool : ∃ held, PoolInv m.allocator held
  known : ∀ row ∈ rows, (m.state row.mirror.seqId).isSome

omit [DecidableEq D] in
/-- A pool of mirrors, rewound or not. -/
theorem Mirrored.of_inv [BlockDigest D] {L : List Sequence} {rows : List Row} (h : ManagerInv m L)
    (hids : ∀ row ∈ rows, row.mirror.seqId ∈ L.map (·.seqId)) : Mirrored m rows := by
  refine ⟨h.blockSize_pos, ⟨_, h.pool⟩, fun row hrow => ?_⟩
  obtain ⟨seq, hseq, hid⟩ := List.mem_map.mp (hids row hrow)
  obtain ⟨st, hst⟩ := h.holds seq hseq
  rw [← hid, hst.state_eq]
  rfl

omit [DecidableEq D] in
theorem Mirrored.of_labels {rows rows' : List Row} (h : Mirrored m rows)
    (hlabels : rows'.map Row.label = rows.map Row.label) : Mirrored m rows' := by
  refine ⟨h.blockSize_pos, h.pool, fun row hrow => ?_⟩
  have hmem : row.label ∈ rows.map Row.label := hlabels ▸ List.mem_map_of_mem hrow
  obtain ⟨row', hrow', hlabel⟩ := List.mem_map.mp hmem
  have hid : row'.mirror.seqId = row.mirror.seqId := congrArg (·.2.1) hlabel
  exact hid ▸ h.known row' hrow'

/-- A mirror whose blocks can be served gets them, and only those are gone for the others. -/
theorem appendSlots_mirrored {rows : List Row} {mirror : Sequence} {n : ℕ}
    (h : Mirrored m rows) (hknown : (m.state mirror.seqId).isSome)
    (hn : mirror.numComputedTokens + n ≤ mirror.numTokens)
    (hroom : mirrorBlocks m mirror n ≤ m.allocator.numAllocatable) :
    ∃ slots m' table,
      m.appendSlots mirror n = .ok (slots, m', { mirror with blockTable := table }) ∧
      slots.length = n ∧ Mirrored m' rows ∧ m'.blockSize = m.blockSize ∧
      m'.allocator.numAllocatable + mirrorBlocks m mirror n = m.allocator.numAllocatable := by
  obtain ⟨held, hpool⟩ := h.pool
  obtain ⟨m', fresh, hgrow, hlen, -, -, -, hpool', -, hstate, hbs, hnum, -⟩ :=
    growTable_spec (mirrorBlocks m mirror n) mirror.blockTable hpool hroom
  have hcovers : mirror.numComputedTokens + n ≤
      (mirror.blockTable ++ fresh).length * m.blockSize := by
    refine (le_ceilDiv_mul h.blockSize_pos).trans (Nat.mul_le_mul_right _ ?_)
    rw [List.length_append, hlen]
    unfold mirrorBlocks
    omega
  have hslots : m'.slotMapping { mirror with blockTable := mirror.blockTable ++ fresh }
      mirror.numComputedTokens n = .ok _ :=
    slotMapping_ok (hbs ▸ h.blockSize_pos) (hbs ▸ hcovers)
  have hsome : (m.state mirror.seqId).isNone = false := by
    rw [← Option.not_isSome, hknown]
    rfl
  refine ⟨(List.range' mirror.numComputedTokens n).map
      (slotAt m'.blockSize (mirror.blockTable ++ fresh)), m', mirror.blockTable ++ fresh, ?_, ?_,
    ⟨hbs ▸ h.blockSize_pos, ⟨_, hpool'⟩, ?_⟩,
    hbs, hnum⟩
  · unfold mirrorBlocks at hgrow
    simp only [BlockManager.appendSlots, hsome, Bool.false_eq_true, if_false,
      if_neg (not_lt.mpr hn), hgrow, bind, Except.bind, hslots]
  · rw [List.length_map, List.length_range']
  · rw [hstate]
    exact h.known

theorem packPass_spec (plan : List (Row × ℕ)) {known : List Row} (h : Mirrored m known)
    (hknown : ∀ p ∈ plan, p.1 ∈ known)
    (hroom : taken m plan ≤ m.allocator.numAllocatable)
    (hwithin : ∀ p ∈ plan, p.2 ≤ p.1.backlog) :
    ∃ m' rows batch, packPass m plan = .ok (m', rows, batch) ∧
      List.Forall₂ FedRow plan rows ∧ Mirrored m' known ∧
      (batch.map (·.numNewTokens)).sum = planned plan := by
  induction plan generalizing m with
  | nil => exact ⟨m, [], [], rfl, .nil, h, rfl⟩
  | cons p plan ih =>
      obtain ⟨row, n⟩ := p
      have hknown' : ∀ p ∈ plan, p.1 ∈ known := fun p hp =>
        hknown p (List.mem_cons_of_mem _ hp)
      have hwithin' : ∀ p ∈ plan, p.2 ≤ p.1.backlog := fun p hp =>
        hwithin p (List.mem_cons_of_mem _ hp)
      cases n with
      | zero =>
          have hroom' : taken m plan ≤ m.allocator.numAllocatable := by
            change 0 + taken m plan ≤ _ at hroom
            omega
          obtain ⟨m', rows, batch, hok, hfed, hinv, hsum⟩ := ih h hknown' hroom' hwithin'
          refine ⟨m', row :: rows, batch, ?_, .cons ⟨rfl, rfl, rfl, rfl⟩ hfed, hinv, ?_⟩
          · rw [packPass, hok]
            rfl
          · rw [hsum]
            exact (Nat.zero_add _).symm
      | succ n =>
          have hbacklog : n + 1 ≤ row.backlog := hwithin (row, n + 1) List.mem_cons_self
          have hn : row.mirror.numComputedTokens + (n + 1) ≤ row.mirror.numTokens := by
            unfold Row.backlog at hbacklog
            omega
          have htaken : mirrorBlocks m row.mirror (n + 1) + taken m plan ≤
              m.allocator.numAllocatable := hroom
          have hrow : (m.state row.mirror.seqId).isSome := h.known _ (hknown _ List.mem_cons_self)
          have hroom' : mirrorBlocks m row.mirror (n + 1) ≤ m.allocator.numAllocatable := by omega
          obtain ⟨slots, m₁, table, hok, hslots, hinv, hbs, hleft⟩ :=
            appendSlots_mirrored h hrow hn hroom'
          have hadvance : ({ row.mirror with blockTable := table } : Sequence).advanceComputed
              (n + 1) = .ok (advanced { row.mirror with blockTable := table } (n + 1)) :=
            Sequence.advanceComputed_ok hn
          have hsame : taken m₁ plan = taken m plan := by
            unfold taken mirrorBlocks
            rw [hbs]
          obtain ⟨m', rows, batch, hpack, hfed, hinv', hsum⟩ :=
            ih hinv hknown' (by omega) hwithin'
          have hstart : row.mirror.numComputedTokens ≤ row.mirror.numComputedTokens + (n + 1) :=
            Nat.le_add_right _ _
          have htoks : (advanced { row.mirror with blockTable := table } (n + 1)).tokensInRange
              row.mirror.numComputedTokens (row.mirror.numComputedTokens + (n + 1)) = .ok _ :=
            Sequence.tokensInRange_ok hstart hn
          have hlen : ((row.mirror.tokenIds.take (row.mirror.numComputedTokens + (n + 1))).drop
              row.mirror.numComputedTokens).length = n + 1 := by
            rw [List.length_drop, List.length_take, Sequence.length_tokenIds]
            omega
          obtain ⟨item, hcreate, hitem⟩ : ∃ item, ScheduledSeq.create row.mirror.seqId (n + 1)
              (row.mirror.numComputedTokens + (n + 1)) _ slots table
              (decide (row.mirror.numComputedTokens < row.mirror.numPromptTokens))
              (decide (row.mirror.numComputedTokens < row.mirror.numPromptTokens) &&
                decide (row.mirror.numComputedTokens + (n + 1) < row.mirror.numPromptTokens)) 0 =
                .ok item ∧ item.numNewTokens = n + 1 :=
            ⟨_, ScheduledSeq.create_ok (Nat.succ_pos n) hlen hslots (Nat.le_add_left _ _), rfl⟩
          refine ⟨m', { row with
              mirror := advanced { row.mirror with blockTable := table } (n + 1) } :: rows,
            item :: batch, ?_, .cons ⟨rfl, rfl, rfl, rfl⟩ hfed, hinv', ?_⟩
          · rw [packPass]
            simp only [hok, hadvance, htoks, bind, Except.bind]
            erw [hcreate]
            simp only [hpack]
          · rw [List.map_cons, List.sum_cons, hitem, hsum]
            rfl

/-! ## §3  The loop -/

/-- A row that takes part is at least one token short. -/
def InCall (row : Row) : Prop := row.budget = 0 ∨ Behind row.mirror

/-- What is left to feed. -/
def toFeed (rows : List Row) : ℕ :=
  (rows.map fun row => if row.budget = 0 then 0 else row.backlog).sum

/-- A row that no pass concerns any more. -/
theorem InCall.done {row : Row} (h : InCall row) (hdone : row.pending = false) :
    row.budget = 0 ∨ row.mirror.numComputedTokens + 1 = row.mirror.numTokens := by
  rcases h with hzero | hbehind
  · exact Or.inl hzero
  · have hnot : ¬ (0 < row.budget ∧ row.mirror.numComputedTokens < row.mirror.numTokens - 1) :=
      of_decide_eq_false hdone
    unfold Behind at hbehind
    omega

theorem PlannedRow.inCall {row : Row} {p : Row × ℕ} (hp : PlannedRow row p) (h : InCall row) :
    InCall p.1 := by
  rcases hp.budget with heq | ⟨heq, -⟩
  · rw [heq]
    exact h
  · rw [heq]
    exact Or.inl rfl

/-- What a planned row and the row fed leave to feed, and that it stays short of one token. -/
theorem PlannedRow.fed {row row' : Row} {p : Row × ℕ} (hp : PlannedRow row p)
    (hfed : FedRow p row') (h : InCall row) : InCall row' ∧
      (if row'.budget = 0 then 0 else row'.backlog) + p.2 ≤
        (if row.budget = 0 then 0 else row.backlog) := by
  have hmirror := hp.mirror_eq
  have hwithin := hp.within
  have hcomputed := hfed.computed_eq
  have hnum := hfed.numTokens_eq
  have hbudget := hfed.budget_eq
  rw [hmirror] at hcomputed hnum
  unfold Row.backlog at hwithin ⊢
  by_cases hnone : p.2 = 0
  · have hsame : InCall row' := by
      rcases hp.inCall h with hzero | hbehind
      · exact Or.inl (hbudget.trans hzero)
      · refine Or.inr ?_
        unfold Behind at hbehind ⊢
        rw [hmirror] at hbehind
        omega
    refine ⟨hsame, ?_⟩
    rw [hcomputed, hnum, hnone, hbudget]
    rcases hp.budget with heq | ⟨heq, -⟩
    · rw [heq]
      simp only [Nat.add_zero, le_refl]
    · rw [heq, if_pos rfl]
      exact Nat.zero_le _
  · have hpending := of_decide_eq_true (hp.fed_pending hnone)
    have heq : p.1 = row := hp.budget.resolve_right fun hzero => hnone hzero.2
    rw [heq] at hbudget
    refine ⟨Or.inr ?_, ?_⟩
    · unfold Behind
      omega
    · rw [hbudget, if_neg hpending.1.ne', if_neg hpending.1.ne']
      omega

theorem toFeed_fed {rows rows' : List Row} {plan : List (Row × ℕ)}
    (hplan : List.Forall₂ PlannedRow rows plan) (hfed : List.Forall₂ FedRow plan rows')
    (h : ∀ row ∈ rows, InCall row) :
    (∀ row ∈ rows', InCall row) ∧ toFeed rows' + planned plan ≤ toFeed rows := by
  induction hplan generalizing rows' with
  | nil =>
      cases hfed
      exact ⟨h, le_rfl⟩
  | @cons row p rows plan hp _ ih =>
      cases hfed with
      | @cons _ row' _ rows' hrow hrest =>
          obtain ⟨hinCall, hle⟩ := hp.fed hrow (h row List.mem_cons_self)
          obtain ⟨hall, hsum⟩ := ih hrest fun r hr => h r (List.mem_cons_of_mem _ hr)
          refine ⟨fun r hr => ?_, ?_⟩
          · rcases List.mem_cons.mp hr with rfl | hr
            · exact hinCall
            · exact hall r hr
          · change (if row'.budget = 0 then 0 else row'.backlog) + toFeed rows' +
              (p.2 + planned plan) ≤ (if row.budget = 0 then 0 else row.backlog) + toFeed rows
            omega

/-- The pool serves the mirrors of the rows, and no pass has fed more than the budget. -/
structure Catching (maxTokens : ℕ) (s : Drafting D) : Prop where
  pool : Mirrored s.pool s.rows
  inCall : ∀ row ∈ s.rows, InCall row
  budget : ∀ batch ∈ s.forwards, (batch.map (·.numNewTokens)).sum ≤ maxTokens

variable {s : Drafting D} {maxTokens : ℕ}

/-- One pass: it feeds something and goes on, or no row is left to feed. -/
theorem catchUpPass_spec (h : Catching maxTokens s) (hmax : 1 ≤ maxTokens) :
    ∃ more s', catchUpPass maxTokens s = .ok (more, s') ∧ Catching maxTokens s' ∧
      s'.rows.map Row.label = s.rows.map Row.label ∧
      (more = true → toFeed s'.rows < toFeed s.rows) ∧
      (more = false → ∀ row ∈ s'.rows, row.pending = false) := by
  unfold catchUpPass
  by_cases hall : s.rows.all (fun row => !row.pending) = true
  · rw [if_pos hall]
    refine ⟨false, s, rfl, h, rfl, fun hmore => absurd hmore Bool.false_ne_true,
      fun _ row hrow => ?_⟩
    exact Bool.not_eq_true' _ ▸ List.all_eq_true.mp hall row hrow
  rw [if_neg hall]
  dsimp only
  obtain ⟨hplan, hplanned, htaken, hdone⟩ :=
    @planPass_spec _ s.pool s.rows maxTokens 0 (Nat.zero_le _)
  generalize planPass s.pool s.rows maxTokens 0 = plan at hplan hplanned htaken hdone
  have hlabels : (plan.map (·.1)).map Row.label = s.rows.map Row.label := by
    rw [List.map_map]
    exact (Lib.related_map_eq hplan fun _ _ hp => hp.label_eq.symm).symm
  have hpool : Mirrored s.pool (plan.map (·.1)) := h.pool.of_labels hlabels
  by_cases hnone : plan.all (fun p => p.2 == 0) = true
  · rw [if_pos hnone]
    refine ⟨false, _, rfl, ⟨hpool, ?_, h.budget⟩, hlabels,
      fun hmore => absurd hmore Bool.false_ne_true, ?_⟩
    · intro row hrow
      obtain ⟨p, hp, rfl⟩ := List.mem_map.mp hrow
      obtain ⟨row, hmem, hpr⟩ := Lib.related_right hplan hp
      exact hpr.inCall (h.inCall row hmem)
    · intro _ row hrow
      obtain ⟨p, hp, rfl⟩ := List.mem_map.mp hrow
      refine hdone hmax ?_ p hp
      refine List.sum_eq_zero fun n hn => ?_
      obtain ⟨q, hq, rfl⟩ := List.mem_map.mp hn
      exact beq_iff_eq.mp (List.all_eq_true.mp hnone q hq)
  rw [if_neg hnone]
  have hwithin : ∀ p ∈ plan, p.2 ≤ p.1.backlog := by
    intro p hp
    obtain ⟨row, -, hpr⟩ := Lib.related_right hplan hp
    have hle := hpr.within
    unfold Row.backlog at hle ⊢
    rwa [hpr.mirror_eq]
  obtain ⟨m', rows, batch, hpack, hfed, hpool', hsum⟩ := packPass_spec plan hpool
    (fun p hp => List.mem_map_of_mem hp) htaken hwithin
  have hlabels' : rows.map Row.label = (plan.map (·.1)).map Row.label := by
    rw [List.map_map]
    exact (Lib.related_map_eq hfed fun _ _ hp => hp.label_eq.symm).symm
  obtain ⟨hinCall, hless⟩ := toFeed_fed hplan hfed h.inCall
  have hpos : 0 < planned plan := by
    rw [Nat.pos_iff_ne_zero]
    intro hzero
    refine hnone (List.all_eq_true.mpr fun p hp => beq_iff_eq.mpr ?_)
    exact List.sum_eq_zero_iff.mp hzero p.2 (List.mem_map_of_mem hp)
  refine ⟨true, ⟨m', rows, s.forwards ++
    [batch.filter (·.isPrefill) ++ batch.filter (!·.isPrefill)]⟩, ?_,
    ⟨hpool'.of_labels hlabels', hinCall, ?_⟩, hlabels'.trans hlabels, fun _ => ?_,
    fun hmore => absurd hmore.symm Bool.false_ne_true⟩
  · simp only [hpack, bind, Except.bind]
  · intro b hb
    rcases List.mem_append.mp hb with hb | hb
    · exact h.budget b hb
    · rw [List.mem_singleton.mp hb,
        ((List.filter_append_perm (·.isPrefill) batch).map (·.numNewTokens)).sum_eq, hsum]
      exact hplanned
  · dsimp only
    omega

/-- Every pass that goes on leaves less to feed, so some pass does not. -/
theorem catchUp_spec (h : Catching maxTokens s) (hmax : 1 ≤ maxTokens) :
    ∃ s', (∀ fuel, toFeed s.rows < fuel → catchUp maxTokens fuel s = .ok s') ∧
      s'.rows.map Row.label = s.rows.map Row.label ∧ Catching maxTokens s' ∧
      ∀ row ∈ s'.rows, row.pending = false := by
  induction hn : toFeed s.rows using Nat.strong_induction_on generalizing s with
  | _ n ih =>
      obtain ⟨more, s₁, hpass, h₁, hlabels, hless, hdone⟩ := catchUpPass_spec h hmax
      cases more with
      | false =>
          refine ⟨s₁, fun fuel hfuel => ?_, hlabels, h₁, hdone rfl⟩
          obtain ⟨fuel, rfl⟩ := Nat.exists_eq_succ_of_ne_zero (Nat.ne_zero_of_lt hfuel)
          rw [catchUp, hpass]
          rfl
      | true =>
          have hlt : toFeed s₁.rows < n := hn ▸ hless rfl
          obtain ⟨s', hruns, hlabels', h', hdone'⟩ := ih _ hlt h₁ rfl
          refine ⟨s', fun fuel hfuel => ?_, hlabels'.trans hlabels, h', hdone'⟩
          obtain ⟨fuel, rfl⟩ := Nat.exists_eq_succ_of_ne_zero (Nat.ne_zero_of_lt hfuel)
          rw [catchUp, hpass]
          exact hruns fuel (by omega)

/-! ## §4  A call -/

theorem rewindScan_le {cached tokens : List TokenId} {limit length : ℕ} :
    rewindScan cached tokens limit length ≤ length := by
  induction length with
  | zero => exact le_rfl
  | succ length ih =>
      rw [rewindScan]
      split
      · exact ih.trans length.le_succ
      · exact le_rfl

/-- What `_prepare` hands to the loop: a rewound mirror has a token left to query with. -/
theorem rewind_behind {mirror target : Sequence} {maxRollback : ℕ}
    (hprompt : mirror.promptTokenIds = target.promptTokenIds) :
    Behind (rewind mirror target maxRollback) := by
  have hsome : 0 < target.promptTokenIds.length :=
    List.length_pos_of_ne_nil target.prompt_ne_nil
  have hlen : target.tokenIds.length =
      target.promptTokenIds.length + target.outputTokenIds.length := List.length_append
  have hdrop : (target.tokenIds.drop mirror.numPromptTokens).length =
      target.outputTokenIds.length := by
    rw [List.length_drop, hlen]
    unfold Sequence.numPromptTokens
    rw [hprompt]
    omega
  have hscan := @rewindScan_le mirror.tokenIds target.tokenIds
    (min mirror.numComputedTokens (min (target.tokenIds.length - 1) mirror.tokenIds.length) -
      maxRollback)
    (min mirror.numComputedTokens (min (target.tokenIds.length - 1) mirror.tokenIds.length))
  unfold Behind rewind Sequence.numTokens
  dsimp only
  rw [hprompt, hdrop]
  split <;> omega

/-- Whatever the pool and the backlog, the loop ends with every row fed up to its last token or
retired; it raises nothing, and no forward pass exceeds the token budget. -/
theorem catchUp_ends {pool : BlockManager D} {rows : List Row} {maxTokens : ℕ}
    (hpool : Mirrored pool rows) (hrows : ∀ row ∈ rows, InCall row) (hmax : 1 ≤ maxTokens) :
    ∃ s', (∀ fuel, toFeed rows < fuel → catchUp maxTokens fuel ⟨pool, rows, []⟩ = .ok s') ∧
      s'.rows.map Row.label = rows.map Row.label ∧
      (∀ row ∈ s'.rows,
        row.budget = 0 ∨ row.mirror.numComputedTokens + 1 = row.mirror.numTokens) ∧
      ∀ batch ∈ s'.forwards, (batch.map (·.numNewTokens)).sum ≤ maxTokens := by
  have hstart : Catching maxTokens ⟨pool, rows, []⟩ :=
    ⟨hpool, hrows, fun _ hb => absurd hb List.not_mem_nil⟩
  obtain ⟨s', hruns, hlabels, hcatching, hdone⟩ := catchUp_spec hstart hmax
  exact ⟨s', hruns, hlabels, fun row hrow => (hcatching.inCall row hrow).done (hdone row hrow),
    hcatching.budget⟩

/-- Two mirrors of three tokens and two blocks of one token: whoever goes first, one of the
rows is retired. -/
theorem catchUp_ends_twoRows :
    ∃ (pool : BlockManager FreeDigest) (rows : List Row) (s' : Drafting FreeDigest),
      pool.allocator.numAllocatable = 2 ∧ rows.length = 2 ∧ toFeed rows = 4 ∧
      catchUp 3 5 ⟨pool, rows, []⟩ = .ok s' ∧ s'.rows.length = 2 ∧
      ∀ row ∈ s'.rows,
        row.budget = 0 ∨ row.mirror.numComputedTokens + 1 = row.mirror.numTokens := by
  let seq (i : SeqId) : Sequence :=
    { (default : Sequence) with
      seqId := i, promptTokenIds := [5, 6, 7], prompt_ne_nil := List.cons_ne_nil _ _ }
  let row (i : SeqId) : Row := ⟨i, seq i, rewind (seq i) (seq i) 3, 2, []⟩
  have hempty : PoolReachable (BlockManager.create FreeDigest 2 1 false) [] :=
    .init ⟨2, 1, false, Nat.one_pos, rfl⟩
  have hone : PoolReachable _ [_] :=
    hempty.step (.allocate List.not_mem_nil rfl
      (show BlockManager.allocate _ (seq 0) = .ok (0, _, _) from rfl))
  have htwo : PoolReachable _ [_, _] :=
    hone.step (.allocate (by decide) rfl
      (show BlockManager.allocate _ (seq 1) = .ok (0, _, _) from rfl))
  have hpool : Mirrored _ [row 0, row 1] := .of_inv htwo.managerInv fun r hr => by
    rcases List.mem_cons.mp hr with rfl | hr
    · exact .tail _ (.head _)
    · rw [List.mem_singleton.mp hr]
      exact .head _
  have hrows : ∀ r ∈ [row 0, row 1], InCall r := by
    intro r hr
    rcases List.mem_cons.mp hr with rfl | hr
    · exact Or.inr (rewind_behind rfl)
    · rw [List.mem_singleton.mp hr]
      exact Or.inr (rewind_behind rfl)
  obtain ⟨s', hruns, hlabels, hend, -⟩ := catchUp_ends hpool hrows (show 1 ≤ 3 by decide)
  have hlen : s'.rows.length = 2 := by
    rw [← List.length_map (f := Row.label), hlabels]
    rfl
  exact ⟨_, _, s', rfl, rfl, rfl, hruns 5 (by decide), hlen, hend⟩

end TurboServe.Spec
