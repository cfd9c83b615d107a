import CIM.Ns.NameServerRuns

/-!
# The difference of two registrations

`diff` walks over both registrations and sorts each command of each domain into one of three maps.
The registry that had the old registration has the new one once the difference is applied.
-/
namespace CIM.ns

/-- The three maps that `diff` is given by reference. -/
structure Diff where
  dels : DomainSets
  news : DomainSets
  comms : DomainSets

/-- `insert` of a map leaves an entry that is there. -/
def insertEntry (m : DomainSets) (i : Sigma fun _ : String => List UInt32) : DomainSets :=
  if i.1 ∈ m then m else m.insert i.1 i.2

/-- One turn of the first loop. -/
def diffOld (new_value : DomainSets) (r : Diff) (i : Sigma fun _ : String => List UInt32) : Diff :=
  match new_value.lookup i.1 with
  | none => { r with dels := insertEntry r.dels i }
  | some it =>
      i.2.foldl (fun r n =>
        if it.contains n then { r with comms := insertCmd i.1 r.comms n }
        else { r with dels := insertCmd i.1 r.dels n }) r

/-- One turn of the second loop. -/
def diffNew (old_value : DomainSets) (r : Diff) (i : Sigma fun _ : String => List UInt32) : Diff :=
  match old_value.lookup i.1 with
  | none => { r with news := insertEntry r.news i }
  | some it =>
      i.2.foldl (fun r n =>
        if it.contains n then r else { r with news := insertCmd i.1 r.news n }) r

def diff (old_value new_value : DomainSets) (r : Diff) : Diff :=
  new_value.entries.foldl (diffNew old_value) (old_value.entries.foldl (diffOld new_value) r)

/-- The difference as `set` computes it, with maps that are empty. -/
def difference (old_value new_value : DomainSets) : Diff := diff old_value new_value ⟨∅, ∅, ∅⟩

variable {m m' m'' old_v new_v : DomainSets} {domain d : String} {n c : UInt32}
  {i : Sigma fun _ : String => List UInt32} {l : DomainCmds} {p : String → UInt32 → Prop}

/-! ## What a loop collects -/

theorem has_insertCmd :
    Has (insertCmd domain m n) d c ↔ Has m d c ∨ d = domain ∧ c = n := by
  unfold Has insertCmd
  by_cases hd : d = domain
  · subst hd
    rw [AList.lookup_insert]
    cases hl : m.lookup d <;> simp [List.mem_insert_iff, or_comm]
  · rw [AList.lookup_insert_ne hd]
    simp [hd]

theorem has_insertEntry (hnew : i.1 ∉ m) :
    Has (insertEntry m i) d c ↔ Has m d c ∨ d = i.1 ∧ c ∈ i.2 := by
  unfold insertEntry
  rw [if_neg hnew]
  unfold Has
  by_cases hd : d = i.1
  · subst hd
    rw [AList.lookup_insert, AList.lookup_eq_none.mpr hnew]
    simp
  · rw [AList.lookup_insert_ne hd]
    simp [hd]

theorem mem_insertCmd (h : d ∈ insertCmd domain m n) : d ∈ m ∨ d = domain :=
  ((AList.mem_insert m).mp h).symm

theorem mem_insertEntry (h : d ∈ insertEntry m i) : d ∈ m ∨ d = i.1 := by
  unfold insertEntry at h
  split_ifs at h with hmem
  · exact .inl h
  · exact ((AList.mem_insert m).mp h).symm

/-- From `m` to `m'` the commands of the entries with the property were added, and no key but
theirs. -/
structure Collects (p : String → UInt32 → Prop) (l : DomainCmds) (m m' : DomainSets) : Prop where
  has : ∀ d c, Has m' d c ↔ Has m d c ∨ Lists l d c ∧ p d c
  keys : ∀ d ∈ m', d ∈ m ∨ ∃ i ∈ l, i.1 = d

theorem lists_nil : ¬Lists [] d c := by
  rintro ⟨i, hi, -⟩
  cases hi

theorem Collects.nil : Collects p [] m m where
  has d c := by simp [lists_nil]
  keys d hd := .inl hd

theorem Collects.cons (h : Collects p [i] m m') (hrest : Collects p l m' m'') :
    Collects p (i :: l) m m'' where
  has d c := by
    have hnil : ¬Lists [] d c := lists_nil
    have hcons : Lists (i :: l) d c ↔ Lists [i] d c ∨ Lists l d c := by
      rw [NSDomainSet.lists_cons, NSDomainSet.lists_cons, or_iff_left hnil]
    rw [hrest.has, h.has, hcons, or_and_right, or_assoc]
  keys d hd := by
    rcases hrest.keys d hd with hd | ⟨j, hj, hjd⟩
    · rcases h.keys d hd with hd | ⟨j, hj, hjd⟩
      · exact .inl hd
      · exact .inr ⟨i, List.mem_cons_self .., (List.mem_singleton.mp hj) ▸ hjd⟩
    · exact .inr ⟨j, List.mem_cons_of_mem _ hj, hjd⟩

/-- A turn adds no key but that of its own entry, so the keys that come later are still new. -/
theorem Collects.fresh (h : Collects p [i] m m') (hi : i.1 ∉ l.map Sigma.fst)
    (hnew : ∀ j ∈ i :: l, j.1 ∉ m) : ∀ j ∈ l, j.1 ∉ m' := by
  intro j hj hmem
  rcases h.keys j.1 hmem with hmem | ⟨k, hk, hkj⟩
  · exact hnew j (List.mem_cons_of_mem _ hj) hmem
  · obtain rfl := List.mem_singleton.mp hk
    exact hi (hkj ▸ List.mem_map_of_mem hj)

/-- The commands with a property, inserted one after the other. -/
def insertSome (keep : UInt32 → Bool) (domain : String) (m : DomainSets) (cs : List UInt32) :
    DomainSets :=
  cs.foldl (fun m n => if keep n then insertCmd domain m n else m) m

theorem insertSome_cons (keep : UInt32 → Bool) (cs : List UInt32) :
    insertSome keep domain m (n :: cs) =
      insertSome keep domain (if keep n then insertCmd domain m n else m) cs := rfl

theorem has_insertSome (keep : UInt32 → Bool) (cs : List UInt32) :
    Has (insertSome keep domain m cs) d c ↔ Has m d c ∨ d = domain ∧ c ∈ cs ∧ keep c := by
  induction cs generalizing m with
  | nil => simp [insertSome]
  | cons n cs ih =>
      have hone : Has (if keep n then insertCmd domain m n else m) d c ↔
          Has m d c ∨ d = domain ∧ c = n ∧ keep n := by
        split_ifs with hn
        · rw [has_insertCmd, and_iff_left hn]
        · simp [hn]
      rw [insertSome_cons, ih, hone, List.mem_cons]
      constructor
      · rintro ((h | ⟨hd, rfl, hn⟩) | ⟨hd, hc, hk⟩)
        · exact .inl h
        · exact .inr ⟨hd, .inl rfl, hn⟩
        · exact .inr ⟨hd, .inr hc, hk⟩
      · rintro (h | ⟨hd, rfl | hc, hk⟩)
        · exact .inl (.inl h)
        · exact .inl (.inr ⟨hd, rfl, hk⟩)
        · exact .inr ⟨hd, hc, hk⟩

theorem mem_insertSome (keep : UInt32 → Bool) (cs : List UInt32)
    (h : d ∈ insertSome keep domain m cs) : d ∈ m ∨ d = domain := by
  induction cs generalizing m with
  | nil => exact .inl h
  | cons n cs ih =>
      rw [insertSome_cons] at h
      rcases ih h with h | h
      · split_ifs at h
        · exact mem_insertCmd h
        · exact .inl h
      · exact .inr h

/-- The commands of one domain that the other registration has, or has not. -/
theorem collects_insertSome (keep : UInt32 → Bool) (hkeep : ∀ c, keep c = true ↔ p i.1 c) :
    Collects p [i] m (insertSome keep i.1 m i.2) where
  has d c := by
    rw [has_insertSome, NSDomainSet.lists_cons, hkeep, or_iff_left lists_nil, and_assoc]
    constructor
    · rintro (h | ⟨rfl, hc, hp⟩)
      · exact .inl h
      · exact .inr ⟨rfl, hc, hp⟩
    · rintro (h | ⟨rfl, hc, hp⟩)
      · exact .inl h
      · exact .inr ⟨rfl, hc, hp⟩
  keys d hd := (mem_insertSome keep i.2 hd).imp_right fun h => ⟨i, List.mem_cons_self .., h.symm⟩

theorem collects_insertEntry (hnew : i.1 ∉ m) (hp : ∀ c, p i.1 c) :
    Collects p [i] m (insertEntry m i) where
  has d c := by
    rw [has_insertEntry hnew, NSDomainSet.lists_cons, or_iff_left lists_nil]
    constructor
    · rintro (h | ⟨rfl, hc⟩)
      · exact .inl h
      · exact .inr ⟨⟨rfl, hc⟩, hp c⟩
    · rintro (h | ⟨⟨rfl, hc⟩, -⟩)
      · exact .inl h
      · exact .inr ⟨rfl, hc⟩
  keys d hd := (mem_insertEntry hd).imp_right fun h => ⟨i, List.mem_cons_self .., h.symm⟩

theorem collects_same (hp : ∀ c, ¬p i.1 c) : Collects p [i] m m where
  has d c := by
    rw [NSDomainSet.lists_cons, or_iff_left lists_nil]
    refine (or_iff_left ?_).symm
    rintro ⟨⟨rfl, -⟩, h⟩
    exact hp c h
  keys d hd := .inl hd

/-! ## One turn of each loop -/

theorem has_lookup {it : List UInt32} (h : new_v.lookup d = some it) : Has new_v d c ↔ c ∈ it := by
  simp [Has, h]

theorem not_has_lookup (h : new_v.lookup d = none) : ¬Has new_v d c := by
  simp [Has, h]

/-- The inner loop of the first loop, for each of the maps. -/
theorem foldl_diffOld (it cs : List UInt32) (r : Diff) :
    cs.foldl (fun r n =>
      if it.contains n then { r with comms := insertCmd domain r.comms n }
      else { r with dels := insertCmd domain r.dels n }) r =
    { r with
      dels := insertSome (fun n => !it.contains n) domain r.dels cs
      comms := insertSome it.contains domain r.comms cs } := by
  induction cs generalizing r with
  | nil => rfl
  | cons n cs ih =>
      rw [List.foldl_cons, ih, insertSome_cons, insertSome_cons]
      cases it.contains n <;> rfl

theorem foldl_diffNew (it cs : List UInt32) (r : Diff) :
    cs.foldl (fun r n =>
      if it.contains n then r else { r with news := insertCmd domain r.news n }) r =
    { r with news := insertSome (fun n => !it.contains n) domain r.news cs } := by
  induction cs generalizing r with
  | nil => rfl
  | cons n cs ih =>
      rw [List.foldl_cons, ih, insertSome_cons]
      cases it.contains n <;> rfl

theorem diffOld_collects (new_v : DomainSets) (r : Diff) (hnew : i.1 ∉ r.dels) :
    Collects (fun d c => ¬Has new_v d c) [i] r.dels (diffOld new_v r i).dels ∧
    Collects (Has new_v) [i] r.comms (diffOld new_v r i).comms ∧
    (diffOld new_v r i).news = r.news := by
  unfold diffOld
  cases hl : new_v.lookup i.1 with
  | none =>
      exact ⟨collects_insertEntry hnew fun c => not_has_lookup hl,
        collects_same fun c => not_has_lookup hl, rfl⟩
  | some it =>
      simp only [foldl_diffOld, and_true]
      refine ⟨collects_insertSome _ fun c => ?_, collects_insertSome _ fun c => ?_⟩
      · rw [has_lookup hl, Bool.not_eq_true', ← Bool.not_eq_true, List.contains_iff_mem]
      · rw [has_lookup hl, List.contains_iff_mem]

theorem diffNew_collects (old_v : DomainSets) (r : Diff) (hnew : i.1 ∉ r.news) :
    Collects (fun d c => ¬Has old_v d c) [i] r.news (diffNew old_v r i).news ∧
    (diffNew old_v r i).dels = r.dels ∧ (diffNew old_v r i).comms = r.comms := by
  unfold diffNew
  cases hl : old_v.lookup i.1 with
  | none => exact ⟨collects_insertEntry hnew fun c => not_has_lookup hl, rfl, rfl⟩
  | some it =>
      simp only [foldl_diffNew, and_true]
      refine collects_insertSome _ fun c => ?_
      rw [has_lookup hl, Bool.not_eq_true', ← Bool.not_eq_true, List.contains_iff_mem]

/-! ## The two loops -/

theorem foldl_old_collects (new_v : DomainSets) (l : DomainCmds)
    (hkeys : (l.map Sigma.fst).Nodup) (r : Diff) (hnew : ∀ i ∈ l, i.1 ∉ r.dels) :
    Collects (fun d c => ¬Has new_v d c) l r.dels (l.foldl (diffOld new_v) r).dels ∧
    Collects (Has new_v) l r.comms (l.foldl (diffOld new_v) r).comms ∧
    (l.foldl (diffOld new_v) r).news = r.news := by
  induction l generalizing r with
  | nil => exact ⟨.nil, .nil, rfl⟩
  | cons i l ih =>
      obtain ⟨hi, hkeys⟩ := List.nodup_cons.mp hkeys
      obtain ⟨hdels, hcomms, hnews⟩ :=
        diffOld_collects new_v r (hnew i (List.mem_cons_self ..))
      obtain ⟨hdels', hcomms', hnews'⟩ := ih hkeys (diffOld new_v r i) (hdels.fresh hi hnew)
      exact ⟨hdels.cons hdels', hcomms.cons hcomms', hnews'.trans hnews⟩

theorem foldl_new_collects (old_v : DomainSets) (l : DomainCmds)
    (hkeys : (l.map Sigma.fst).Nodup) (r : Diff) (hnew : ∀ i ∈ l, i.1 ∉ r.news) :
    Collects (fun d c => ¬Has old_v d c) l r.news (l.foldl (diffNew old_v) r).news ∧
    (l.foldl (diffNew old_v) r).dels = r.dels ∧
    (l.foldl (diffNew old_v) r).comms = r.comms := by
  induction l generalizing r with
  | nil => exact ⟨.nil, rfl, rfl⟩
  | cons i l ih =>
      obtain ⟨hi, hkeys⟩ := List.nodup_cons.mp hkeys
      obtain ⟨hnews, hdels, hcomms⟩ :=
        diffNew_collects old_v r (hnew i (List.mem_cons_self ..))
      obtain ⟨hnews', hdels', hcomms'⟩ := ih hkeys (diffNew old_v r i) (hnews.fresh hi hnew)
      exact ⟨hnews.cons hnews', hdels'.trans hdels, hcomms'.trans hcomms⟩

theorem lists_entries (m : DomainSets) : Lists m.entries d c ↔ Has m d c := by
  constructor
  · rintro ⟨⟨e, cs⟩, hi, rfl, hc⟩
    exact ⟨cs, AList.mem_lookup_iff.mpr hi, hc⟩
  · rintro ⟨cs, hcs, hc⟩
    exact ⟨⟨d, cs⟩, AList.mem_lookup_iff.mp hcs, rfl, hc⟩

theorem difference_collects (old_v new_v : DomainSets) :
    (∀ d c, Has (difference old_v new_v).dels d c ↔ Has old_v d c ∧ ¬Has new_v d c) ∧
    (∀ d c, Has (difference old_v new_v).news d c ↔ Has new_v d c ∧ ¬Has old_v d c) ∧
    ∀ d c, Has (difference old_v new_v).comms d c ↔ Has old_v d c ∧ Has new_v d c := by
  obtain ⟨hdels, hcomms, hnews⟩ := foldl_old_collects new_v old_v.entries
    old_v.nodupKeys ⟨∅, ∅, ∅⟩ fun i _ => AList.notMem_empty i.1
  obtain ⟨hnews', hdels', hcomms'⟩ := foldl_new_collects old_v new_v.entries
    new_v.nodupKeys (old_v.entries.foldl (diffOld new_v) ⟨∅, ∅, ∅⟩)
    (by rw [hnews]; exact fun i _ => AList.notMem_empty i.1)
  refine ⟨fun d c => ?_, fun d c => ?_, fun d c => ?_⟩
  · unfold difference diff
    rw [hdels', hdels.has, lists_entries, or_iff_right not_has_empty]
  · unfold difference diff
    rw [hnews'.has, hnews, lists_entries, or_iff_right not_has_empty]
  · unfold difference diff
    rw [hcomms', hcomms.has, lists_entries, or_iff_right not_has_empty]

/-- What `store` deletes is what `diff` collects. -/
theorem lists_dels : Lists (difference old_v new_v).dels.entries d c ↔
    Lists (minus old_v new_v) d c := by
  rw [lists_entries, (difference_collects old_v new_v).1, lists_minus]

theorem lists_news : Lists (difference old_v new_v).news.entries d c ↔
    Lists (minus new_v old_v) d c := by
  rw [lists_entries, (difference_collects old_v new_v).2.1, lists_minus]

/-! ## The registry -/

/-- The node that the registry has under a domain, a command and an id. -/
def NSDomain.findNode (d : NSDomain) (cmd : UInt32) (id : UInt64) : Option NSNode :=
  (d.lookup cmd).bind (·.lookup id)

def NSDomainSet.findNode (ds : NSDomainSet) (domain : String) (cmd : UInt32) (id : UInt64) :
    Option NSNode :=
  (ds.lookup domain).bind (NSDomain.findNode · cmd id)

instance (cs : DomainCmds) (domain : String) (cmd : UInt32) : Decidable (Lists cs domain cmd) :=
  inferInstanceAs (Decidable (∃ i ∈ cs, i.1 = domain ∧ cmd ∈ i.2))

variable {cmd : UInt32} {id : UInt64} {info : NSNode} {cs : DomainCmds} {k : UInt64}

namespace NSDomain

theorem findNode_add (d : NSDomain) : findNode (add d cmd info) c k =
    if c = cmd ∧ k = info.m_id then some info else findNode d c k := by
  unfold findNode add NSNodeSet.add
  by_cases hc : c = cmd
  · subst hc
    rw [AList.lookup_insert]
    by_cases hk : k = info.m_id
    · subst hk
      simp
    · rw [if_neg fun h => hk h.2, Option.bind_some, AList.lookup_insert_ne hk]
      cases d.lookup c <;> rfl
  · rw [AList.lookup_insert_ne hc, if_neg fun h => hc h.1]

theorem findNode_del (d : NSDomain) : findNode (del d cmd id) c k =
    if c = cmd ∧ k = id then none else findNode d c k := by
  unfold findNode del
  cases hl : d.lookup cmd with
  | none =>
      split_ifs with h
      · rw [h.1, hl]; rfl
      · rfl
  | some ns =>
      by_cases hc : c = cmd
      · subst hc
        -- a node set that is left empty finds nothing either
        have hleft : (if (ns.erase id).entries.isEmpty then d.erase c
            else d.insert c (ns.erase id)).lookup c =
              if (ns.erase id).entries.isEmpty then none else some (ns.erase id) := by
          split_ifs <;> simp
        have hempty : (ns.erase id).entries.isEmpty → (ns.erase id).lookup k = none := by
          intro h
          rw [AList.lookup_eq_none, AList.mem_keys, AList.keys, List.isEmpty_iff.mp h]
          exact List.not_mem_nil
        have hfound : ((if (ns.erase id).entries.isEmpty then none
            else some (ns.erase id)) : Option NSNodeSet).bind (·.lookup k) =
              (ns.erase id).lookup k := by
          split_ifs with h
          · exact (hempty h).symm
          · rfl
        simp only [hleft, hfound, hl, true_and, Option.bind_some]
        by_cases hk : k = id
        · rw [hk, AList.lookup_erase, if_pos rfl]
        · rw [AList.lookup_erase_ne hk, if_neg hk]
      · rw [if_neg fun h => hc h.1]
        dsimp only
        split_ifs
        · rw [AList.lookup_erase_ne hc]
        · rw [AList.lookup_insert_ne hc]

theorem findNode_addAll (d : NSDomain) (l : List UInt32) :
    findNode (l.foldl (fun d c => add d c info) d) c k =
      if c ∈ l ∧ k = info.m_id then some info else findNode d c k := by
  induction l generalizing d with
  | nil => simp
  | cons x l ih =>
      rw [List.foldl_cons, ih, findNode_add]
      split_ifs <;> grind

theorem findNode_delAll (d : NSDomain) (l : List UInt32) :
    findNode (l.foldl (fun d c => del d c id) d) c k =
      if c ∈ l ∧ k = id then none else findNode d c k := by
  induction l generalizing d with
  | nil => simp
  | cons x l ih =>
      rw [List.foldl_cons, ih, findNode_del]
      split_ifs <;> grind

end NSDomain

namespace NSDomainSet

theorem findNode_insert (ds : NSDomainSet) (d' : NSDomain) :
    findNode (ds.insert domain d') d c k =
      if d = domain then NSDomain.findNode d' c k else findNode ds d c k := by
  unfold findNode
  split_ifs with h
  · rw [h, AList.lookup_insert]; rfl
  · rw [AList.lookup_insert_ne h]

theorem findNode_getD (ds : NSDomainSet) :
    NSDomain.findNode ((ds.lookup d).getD ∅) c k = findNode ds d c k := by
  unfold findNode
  cases ds.lookup d <;> rfl

theorem findNode_addAll (ds : NSDomainSet) : findNode (addAll ds info cs) d c k =
    if Lists cs d c ∧ k = info.m_id then some info else findNode ds d c k := by
  induction cs generalizing ds with
  | nil => rw [if_neg fun h => lists_nil h.1]; rfl
  | cons i cs ih =>
      change findNode (addAll _ info cs) d c k = _
      rw [ih, findNode_insert, NSDomain.findNode_addAll, findNode_getD]
      simp only [lists_cons]
      split_ifs <;> grind

theorem findNode_delAll (ds : NSDomainSet) : findNode (delAll ds id cs) d c k =
    if Lists cs d c ∧ k = id then none else findNode ds d c k := by
  induction cs generalizing ds with
  | nil => rw [if_neg fun h => lists_nil h.1]; rfl
  | cons i cs ih =>
      have hone : findNode (delAll ds id [i]) d c k =
          if (i.1 = d ∧ c ∈ i.2) ∧ k = id then none else findNode ds d c k := by
        rw [delAll, List.foldl_cons, List.foldl_nil]
        cases hl : ds.lookup i.1 with
        | none =>
            split_ifs with h
            · rw [findNode, ← h.1.1, hl]; rfl
            · rfl
        | some old =>
            have hold : findNode ds i.1 c k = NSDomain.findNode old c k := by
              rw [findNode, hl]; rfl
            dsimp only
            rw [findNode_insert, NSDomain.findNode_delAll]
            split_ifs <;> grind
      change findNode (delAll (delAll ds id [i]) id cs) d c k = _
      rw [ih, hone]
      simp only [lists_cons]
      split_ifs <;> grind

end NSDomainSet

open NSDomainSet

/-- `store` with the lists of what is wanted does what the loops of `set` do with the maps. -/
theorem findNode_applied (ds : NSDomainSet) :
    findNode ((ds.delAll id (difference old_v new_v).dels.entries).addAll info
      (difference old_v new_v).news.entries) d c k =
    findNode ((ds.delAll id (minus old_v new_v)).addAll info (minus new_v old_v)) d c k := by
  rw [findNode_addAll, findNode_delAll, findNode_addAll, findNode_delAll]
  have hdels : Lists (difference old_v new_v).dels.entries d c ↔ Lists (minus old_v new_v) d c :=
    lists_dels
  have hnews : Lists (difference old_v new_v).news.entries d c ↔ Lists (minus new_v old_v) d c :=
    lists_news
  exact if_congr (and_congr_left' hnews) rfl (if_congr (and_congr_left' hdels) rfl rfl)

/-- Each command of a domain is in the one map it belongs to. In a registry that had the old
registration of a node, what is deleted and added leaves the nodes it would have with the new one
alone. -/
theorem registration_diff (old_value new_value : DomainSets) :
    (∀ domain cmd,
      (Has (difference old_value new_value).dels domain cmd ↔
        Has old_value domain cmd ∧ ¬Has new_value domain cmd) ∧
      (Has (difference old_value new_value).news domain cmd ↔
        Has new_value domain cmd ∧ ¬Has old_value domain cmd) ∧
      (Has (difference old_value new_value).comms domain cmd ↔
        Has old_value domain cmd ∧ Has new_value domain cmd)) ∧
    ∀ (ds : NSDomainSet) (info : NSNode),
      (∀ domain cmd, findNode ds domain cmd info.m_id = none) → ∀ domain cmd id,
        findNode (((ds.addAll info old_value.entries).delAll info.m_id
            (difference old_value new_value).dels.entries).addAll info
            (difference old_value new_value).news.entries) domain cmd id =
          findNode (ds.addAll info new_value.entries) domain cmd id := by
  obtain ⟨hdels, hnews, hcomms⟩ := difference_collects old_value new_value
  refine ⟨fun d c => ⟨hdels d c, hnews d c, hcomms d c⟩, fun ds info hfree d c k => ?_⟩
  rw [findNode_addAll, findNode_delAll, findNode_addAll, findNode_addAll]
  by_cases hk : k = info.m_id
  · subst hk
    have hold : Lists old_value.entries d c ↔ Has old_value d c := lists_entries old_value
    have hnew : Lists new_value.entries d c ↔ Has new_value d c := lists_entries new_value
    have hdel := (lists_entries (difference old_value new_value).dels).trans (hdels d c)
    have hadd := (lists_entries (difference old_value new_value).news).trans (hnews d c)
    rw [hfree]
    by_cases ho : Has old_value d c <;> by_cases hn : Has new_value d c
    · simp [hold, hnew, hdel, hadd, ho, hn]
    · simp [hnew, hdel, hadd, ho, hn]
    · simp [hnew, hadd, ho, hn]
    · simp [hold, hnew, hadd, ho, hn]
  · simp only [hk, and_false, if_false]

section Moved

def imNode : NSNode := NSNode.create (fun _ => 0x0100000a) "10.0.0.1" 8061 1

def before : DomainSets := insertCmd "ns" (insertCmd "im" (insertCmd "im" ∅ 257) 258) 1

/-- One command of "im" and the domain "ns" are gone, one command is new. -/
def behind : DomainSets := insertCmd "im" (insertCmd "im" ∅ 257) 259

theorem registration_diff_moved :
    ¬Has (difference before behind).news "ns" 1 ∧
    ∀ domain cmd id,
      findNode ((((∅ : NSDomainSet).addAll imNode before.entries).delAll imNode.m_id
          (difference before behind).dels.entries).addAll imNode
          (difference before behind).news.entries) domain cmd id =
        findNode ((∅ : NSDomainSet).addAll imNode behind.entries) domain cmd id := by
  obtain ⟨hdiff, happly⟩ := registration_diff before behind
  refine ⟨fun hnews => ?_, happly ∅ imNode fun _ _ => rfl⟩
  have hold : Has before "ns" 1 := has_insertCmd.mpr (.inr ⟨rfl, rfl⟩)
  exact ((hdiff "ns" 1).2.1.mp hnews).2 hold

example : (difference before behind).dels.entries.map (fun i => (i.1, i.2)) =
    [("im", [258]), ("ns", [1])] := by decide

end Moved

end CIM.ns
