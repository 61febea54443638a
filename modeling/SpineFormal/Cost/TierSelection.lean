import SpineFormal.Cost.Router

/-!
# The model of a tier

`_select_for_tier` of `shared/cost/router.py` against the menu's own prices. The models of
a tier are compared by what one token in and one token out project to, and a projection is
rounded to four places: prices that round to the same are a tie, which the menu decides.
-/

namespace SpineFormal.Cost

set_option autoImplicit false

/-! ## Rounding keeps the order -/

theorem quantize_nonneg {d : ℚ} (h : 0 ≤ d) : 0 ≤ quantize d := by
  rw [quantize, if_neg (not_lt.mpr h)]
  apply div_nonneg _ (by norm_num)
  exact_mod_cast Int.floor_nonneg.mpr (by positivity)

theorem quantize_nonpos {d : ℚ} (h : d < 0) : quantize d ≤ 0 := by
  rw [quantize, if_pos h]
  apply div_nonpos_of_nonpos_of_nonneg _ (by norm_num)
  apply neg_nonpos.mpr
  exact_mod_cast Int.floor_nonneg.mpr (by positivity)

theorem floor_scaled_le {a b : ℚ} (h : |a| ≤ |b|) :
    ((⌊|a| * 10000 + 1 / 2⌋ : ℤ) : ℚ) ≤ (⌊|b| * 10000 + 1 / 2⌋ : ℤ) := by
  exact_mod_cast Int.floor_le_floor (by linarith)

theorem quantize_mono {a b : ℚ} (h : a ≤ b) : quantize a ≤ quantize b := by
  rcases lt_or_ge b 0 with hb | hb
  · have ha : a < 0 := lt_of_le_of_lt h hb
    have hfloor := floor_scaled_le (a := b) (b := a) (by
      rw [abs_of_neg hb, abs_of_neg ha]
      linarith)
    rw [quantize, quantize, if_pos ha, if_pos hb]
    linarith
  · rcases lt_or_ge a 0 with ha | ha
    · exact (quantize_nonpos ha).trans (quantize_nonneg hb)
    · have hfloor := floor_scaled_le (a := a) (b := b) (by
        rw [abs_of_nonneg ha, abs_of_nonneg hb]
        exact h)
      rw [quantize, quantize, if_neg (not_lt.mpr ha), if_neg (not_lt.mpr hb)]
      linarith

/-! ## The first of the cheapest -/

/-- The price of one token in and one token out, as the menu gives it. -/
def pairPrice (m : ModelInfo) : ℚ := (m.costPer1kInputTokens + m.costPer1kOutputTokens) / 1000

theorem projectCost_pair (m : ModelInfo) : projectCost m 1 1 = quantize (pairPrice m) := by
  rw [projectCost, pairPrice]
  congr 1
  push_cast
  ring

/-- `m` has the least rounded price, and what comes before it has a greater one. -/
structure FirstLeast (ms : List ModelInfo) (pre : List ModelInfo) (m : ModelInfo)
    (post : List ModelInfo) : Prop where
  split : ms = pre ++ m :: post
  least : ∀ n ∈ ms, quantize (pairPrice m) ≤ quantize (pairPrice n)
  first : ∀ n ∈ pre, quantize (pairPrice m) < quantize (pairPrice n)

theorem exists_firstLeast {ms : List ModelInfo} (hms : ms ≠ []) :
    ∃ pre m post, cheapest ms = some m ∧ FirstLeast ms pre m post := by
  induction ms with
  | nil => exact absurd rfl hms
  | cons m ms ih =>
    cases ms with
    | nil =>
      refine ⟨[], m, [], rfl, rfl, ?_, fun _ hn => absurd hn List.not_mem_nil⟩
      intro n hn
      rw [List.mem_singleton.mp hn]
    | cons k ks =>
      obtain ⟨pre, n, post, hcheapest, hfirst⟩ := ih (List.cons_ne_nil k ks)
      rw [cheapest, hcheapest]
      dsimp only
      rw [projectCost_pair, projectCost_pair]
      split
      · rename_i hlt
        refine ⟨m :: pre, n, post, rfl, by rw [hfirst.split, List.cons_append], ?_, ?_⟩
        · intro x hx
          rcases List.mem_cons.mp hx with rfl | hx
          · exact hlt.le
          · exact hfirst.least x hx
        · intro x hx
          rcases List.mem_cons.mp hx with rfl | hx
          · exact hlt
          · exact hfirst.first x hx
      · rename_i hle
        refine ⟨[], m, k :: ks, rfl, rfl, ?_, fun _ hn => absurd hn List.not_mem_nil⟩
        intro x hx
        rcases List.mem_cons.mp hx with rfl | hx
        · exact le_refl _
        · exact (not_lt.mp hle).trans (hfirst.least x hx)

/-- A dearer model that rounds to the same price stands before all the cheapest ones. -/
def Hidden (ms : List ModelInfo) : Prop :=
  ∃ pre m post, ms = pre ++ m :: post ∧ ∃ n ∈ post,
    (∀ k ∈ ms, pairPrice n ≤ pairPrice k) ∧ (∀ k ∈ pre, pairPrice n < pairPrice k) ∧
      pairPrice n < pairPrice m ∧ quantize (pairPrice n) = quantize (pairPrice m)

theorem exists_least {ms : List ModelInfo} (hms : ms ≠ []) :
    ∃ n ∈ ms, ∀ k ∈ ms, pairPrice n ≤ pairPrice k := by
  induction ms with
  | nil => exact absurd rfl hms
  | cons m ms ih =>
    by_cases htail : ms = []
    · refine ⟨m, List.mem_cons_self, fun k hk => ?_⟩
      rw [htail] at hk
      rw [List.mem_singleton.mp hk]
    · obtain ⟨n, hn, hleast⟩ := ih htail
      rcases le_total (pairPrice m) (pairPrice n) with h | h
      · refine ⟨m, List.mem_cons_self, fun k hk => ?_⟩
        rcases List.mem_cons.mp hk with rfl | hk
        · exact le_refl _
        · exact h.trans (hleast k hk)
      · refine ⟨n, List.mem_cons_of_mem m hn, fun k hk => ?_⟩
        rcases List.mem_cons.mp hk with rfl | hk
        · exact h
        · exact hleast k hk

/-- The model that is picked is a cheapest one unless the menu hides them all. -/
theorem FirstLeast.least_iff {ms pre post : List ModelInfo} {m : ModelInfo}
    (h : FirstLeast ms pre m post) :
    (∀ n ∈ ms, pairPrice m ≤ pairPrice n) ↔ ¬ Hidden ms := by
  have hm : m ∈ ms := h.split ▸ List.mem_append_right pre List.mem_cons_self
  constructor
  · rintro hleast ⟨pre', m', post', hsplit, n, hn, hn_least, hpre', hdearer, hround⟩
    have hprice : pairPrice m = pairPrice n :=
      le_antisymm (hleast n (hsplit ▸ List.mem_append_right pre' (List.mem_cons_of_mem m' hn)))
        (hn_least m hm)
    -- The hidden pair's dearer model is not before the picked one, so the picked one is not
    -- after it, and every model up to it is dearer than the cheapest.
    have hsame : quantize (pairPrice m) = quantize (pairPrice m') := by rw [hprice, hround]
    rcases List.append_eq_append_iff.mp (h.split.symm.trans hsplit) with
      ⟨mid, hmid, hrest⟩ | ⟨mid, hmid, hrest⟩
    · cases mid with
      | nil =>
        obtain ⟨rfl, _⟩ := List.cons.inj hrest
        exact absurd hprice hdearer.ne'
      | cons k mid =>
        obtain ⟨rfl, _⟩ := List.cons.inj hrest
        refine absurd hprice (hpre' m ?_).ne'
        rw [hmid]
        exact List.mem_append_right pre List.mem_cons_self
    · cases mid with
      | nil =>
        obtain ⟨rfl, _⟩ := List.cons.inj hrest
        exact absurd hprice hdearer.ne'
      | cons k mid =>
        obtain ⟨rfl, _⟩ := List.cons.inj hrest
        refine absurd hsame (h.first m' ?_).ne
        rw [hmid]
        exact List.mem_append_right pre' List.mem_cons_self
  · intro hhidden
    by_contra hnot
    have hne : ms ≠ [] := List.ne_nil_of_mem hm
    obtain ⟨n, hn, hleast⟩ := exists_least hne
    have hdearer : pairPrice n < pairPrice m := by
      refine lt_of_le_of_ne (hleast m hm) fun heq => hnot fun k hk => ?_
      exact heq ▸ hleast k hk
    have hround : quantize (pairPrice n) = quantize (pairPrice m) :=
      le_antisymm (quantize_mono hdearer.le) (h.least n hn)
    have hpre : ∀ k ∈ pre, pairPrice n < pairPrice k := by
      intro k hk
      refine lt_of_not_ge fun hle => ?_
      exact absurd (quantize_mono hle) (not_le.mpr (hround ▸ h.first k hk))
    refine hhidden ⟨pre, m, post, h.split, n, ?_, hleast, hpre, hdearer, hround⟩
    rw [h.split] at hn
    rcases List.mem_append.mp hn with hn | hn
    · exact absurd (hpre n hn) (lt_irrefl _)
    · rcases List.mem_cons.mp hn with rfl | hn
      · exact absurd hdearer (lt_irrefl _)
      · exact hn

/-! ## The tier -/

/-- `a` is tried before `b`: the intended tier, then the higher ones going up, then the lower
ones going down. -/
def TriedBefore (intended a b : Tier) : Prop :=
  (a = intended ∧ b ≠ intended) ∨
    (intended.rank < a.rank ∧ (b.rank < intended.rank ∨ a.rank < b.rank)) ∨
    (b.rank < a.rank ∧ a.rank < intended.rank)

instance (intended a b : Tier) : Decidable (TriedBefore intended a b) :=
  inferInstanceAs (Decidable (_ ∨ _ ∨ _))

/-- The menu has a model of `t`, and none of a tier that is tried before. -/
structure FirstTier (menu : List ModelInfo) (intended t : Tier) : Prop where
  held : ∃ m ∈ menu, m.tier = t
  first : ∀ m ∈ menu, ¬ TriedBefore intended m.tier t

theorem tierOrder_sorted (intended : Tier) : (tierOrder intended).Pairwise (TriedBefore intended) := by
  cases intended <;> decide

theorem mem_tierOrder (intended t : Tier) : t ∈ tierOrder intended := by
  cases intended <;> cases t <;> decide

theorem triedBefore_irrefl (intended t : Tier) : ¬ TriedBefore intended t t := by
  cases intended <;> cases t <;> decide

theorem triedBefore_asymm {intended a b : Tier} (h : TriedBefore intended a b) :
    ¬ TriedBefore intended b a := by
  revert h
  cases intended <;> cases a <;> cases b <;> decide

theorem eq_of_not_triedBefore {intended a b : Tier} (hab : ¬ TriedBefore intended a b)
    (hba : ¬ TriedBefore intended b a) : a = b := by
  revert hab hba
  cases intended <;> cases a <;> cases b <;> decide

/-- What a menu with a model selects: the first tier it has, and the first of its cheapest. -/
theorem selectForTier_spec {menu : List ModelInfo} (hmenu : menu ≠ []) (intended : Tier) :
    ∃ m t pre post, selectForTier menu intended = some (m, t) ∧ FirstTier menu intended t ∧
      FirstLeast (menu.filter (·.tier = t)) pre m post := by
  have hfound : ∀ order : List Tier, order.Pairwise (TriedBefore intended) →
      (∃ t ∈ order, ∃ m ∈ menu, m.tier = t) →
      (∀ m ∈ menu, m.tier ∈ order ∨ ∀ t ∈ order, ¬ TriedBefore intended m.tier t) →
      ∃ m t pre post, order.findSome? (fun t =>
          (cheapest (menu.filter (·.tier = t))).map fun m => (m, t)) = some (m, t) ∧
        FirstTier menu intended t ∧ FirstLeast (menu.filter (·.tier = t)) pre m post := by
    intro order
    induction order with
    | nil => exact fun _ ⟨t, ht, _⟩ => absurd ht List.not_mem_nil
    | cons t order ih =>
      intro hsorted hsome hrest
      obtain ⟨hbefore, hsorted⟩ := List.pairwise_cons.mp hsorted
      by_cases hnone : menu.filter (·.tier = t) = []
      · have hno : ∀ m ∈ menu, m.tier ≠ t := by
          intro m hm heq
          exact List.filter_eq_nil_iff.mp hnone m hm (by simpa using heq)
        obtain ⟨m, u, pre, post, hfind, hfirst, hleast⟩ := ih hsorted (by
          obtain ⟨u, hu, m, hm, rfl⟩ := hsome
          exact ⟨m.tier, (List.mem_cons.mp hu).resolve_left (hno m hm), m, hm, rfl⟩) (by
          intro m hm
          refine (hrest m hm).imp (fun h => (List.mem_cons.mp h).resolve_left (hno m hm)) ?_
          exact fun h u hu => h u (List.mem_cons_of_mem t hu))
        refine ⟨m, u, pre, post, ?_, hfirst, hleast⟩
        rw [List.findSome?_cons, hnone]
        exact hfind
      · obtain ⟨pre, m, post, hcheapest, hleast⟩ := exists_firstLeast hnone
        refine ⟨m, t, pre, post, ?_, ⟨?_, ?_⟩, hleast⟩
        · rw [List.findSome?_cons, hcheapest]
          rfl
        · have hm : m ∈ menu.filter (·.tier = t) :=
            hleast.split ▸ List.mem_append_right pre List.mem_cons_self
          obtain ⟨hm, htier⟩ := List.mem_filter.mp hm
          exact ⟨m, hm, by simpa using htier⟩
        · intro k hk
          rcases hrest k hk with hin | hout
          · rcases List.mem_cons.mp hin with heq | hin
            · rw [heq]
              exact triedBefore_irrefl intended t
            · exact triedBefore_asymm (hbefore k.tier hin)
          · exact hout t List.mem_cons_self
  obtain ⟨k, hk⟩ := List.exists_mem_of_ne_nil menu hmenu
  exact hfound (tierOrder intended) (tierOrder_sorted intended)
    ⟨k.tier, mem_tierOrder intended k.tier, k, hk, rfl⟩
    fun m _ => Or.inl (mem_tierOrder intended m.tier)

theorem FirstTier.unique {menu : List ModelInfo} {intended t u : Tier}
    (ht : FirstTier menu intended t) (hu : FirstTier menu intended u) : t = u := by
  obtain ⟨m, hm, rfl⟩ := ht.held
  obtain ⟨n, hn, rfl⟩ := hu.held
  exact eq_of_not_triedBefore (hu.first m hm) (ht.first n hn)

/-- The selected model is of the first tier there is, and none of that tier costs less. -/
def PicksCheapest (menu : List ModelInfo) (intended : Tier) : Prop :=
  ∃ m t, selectForTier menu intended = some (m, t) ∧ m ∈ menu ∧ m.tier = t ∧
    FirstTier menu intended t ∧ ∀ n ∈ menu, n.tier = t → pairPrice m ≤ pairPrice n

/-- The cheapest model is picked exactly where rounding hides none of the tier that is
tried. -/
theorem selectForTier_cheapest_iff {menu : List ModelInfo} (hmenu : menu ≠ [])
    (intended : Tier) :
    PicksCheapest menu intended ↔
      ∀ t, FirstTier menu intended t → ¬ Hidden (menu.filter (·.tier = t)) := by
  obtain ⟨m, t, pre, post, hselect, hfirst, hleast⟩ := selectForTier_spec hmenu intended
  have hmem : ∀ n, n ∈ menu.filter (·.tier = t) ↔ n ∈ menu ∧ n.tier = t := by
    intro n
    simp
  constructor
  · rintro ⟨m', t', hselect', _, _, _, hcheap⟩ u hu
    obtain ⟨rfl, rfl⟩ := Prod.mk.inj (Option.some.inj (hselect.symm.trans hselect'))
    rw [hu.unique hfirst]
    apply hleast.least_iff.mp
    exact fun n hn => hcheap n ((hmem n).mp hn).1 ((hmem n).mp hn).2
  · intro hhidden
    obtain ⟨hm, htier⟩ :=
      (hmem m).mp (hleast.split ▸ List.mem_append_right pre List.mem_cons_self)
    refine ⟨m, t, hselect, hm, htier, hfirst, fun n hn hn_tier => ?_⟩
    exact hleast.least_iff.mpr (hhidden t hfirst) n ((hmem n).mpr ⟨hn, hn_tier⟩)

/-! ## Two models of the shipped registry -/

def sonnet : ModelInfo where
  modelId := "claude-sonnet-4-6"
  provider := "anthropic"
  tier := .medium
  costPer1kInputTokens := 3 / 1000
  costPer1kOutputTokens := 15 / 1000
  contextWindow := 200000

def gpt4o : ModelInfo where
  modelId := "gpt-4o"
  provider := "openai"
  tier := .medium
  costPer1kInputTokens := 25 / 10000
  costPer1kOutputTokens := 10 / 1000
  contextWindow := 128000

theorem selectForTier_cheapest_iff_cheaperFirst :
    PicksCheapest [gpt4o, sonnet] .medium ↔
      ∀ t, FirstTier [gpt4o, sonnet] .medium t →
        ¬ Hidden ([gpt4o, sonnet].filter (·.tier = t)) :=
  selectForTier_cheapest_iff (List.cons_ne_nil _ _) .medium

/-- Both round to nothing, so the dearer one is picked for standing first. -/
theorem dearer_model_is_picked : ¬ PicksCheapest [sonnet, gpt4o] .medium := by
  rintro ⟨m, t, hselect, _, _, _, hcheap⟩
  have hsonnet : selectForTier [sonnet, gpt4o] .medium = some (sonnet, .medium) := by
    have hround : ¬ projectCost gpt4o 1 1 < projectCost sonnet 1 1 := by decide +kernel
    have hmedium : [sonnet, gpt4o].filter (·.tier = Tier.medium) = [sonnet, gpt4o] := rfl
    rw [selectForTier, tierOrder, List.cons_append, List.findSome?_cons, hmedium, cheapest,
      cheapest, cheapest]
    dsimp only
    rw [if_neg hround, Option.map_some]
  obtain ⟨rfl, rfl⟩ := Prod.mk.inj (Option.some.inj (hsonnet.symm.trans hselect))
  refine absurd (hcheap gpt4o (List.mem_cons_of_mem _ List.mem_cons_self) rfl) (not_le.mpr ?_)
  norm_num [pairPrice, sonnet, gpt4o]

end SpineFormal.Cost
