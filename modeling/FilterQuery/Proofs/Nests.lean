import FilterQuery.Proofs.Outline

/-!
Readings and the outline of the text that they are in. An expression nests if each of its readings
passes from one depth of brackets to another, no deeper than the height of its value; if a closing
bracket behind a closed text ends its reading as the end of the text does; and if it is halted for
want of room only where the brackets of the text are deep enough for that. The whole grammar nests,
each of its symbols with the room that the nesting limit leaves.
-/
namespace FilterQuery.Grammar

open Scanner Result

/-- The expression reads from a depth of `a` brackets to one of `b`, counted from any depth. -/
structure Peg.Nests {α : Type} (room : Room) (p : Peg α) (a b : Nat) (height : α → Nat) : Prop where
  passes : ∀ ⦃cs rest v⦄, Reads room p cs (matched v rest) →
    ∃ bs, Passes cs rest bs ∧ Climbs a b (height v) bs
  stable : ∀ ⦃n cs⦄, Closed (n + a) cs → ∀ more, p.Stable room cs (')' :: more)
  deepens : ∀ ⦃levels cs⦄, room = .limited levels → Reads room p cs (halted .tooDeep) →
    ∀ n, n + levels < peak (n + a) (brackets .code cs)

/-! ## Rounds of a repetition -/

section rounds

variable {α β : Type} {room : Room} {p : Peg α} {cs mid rest : List Char} {as : List α}

/-- Readings one after the other, each of them where the one before it ended. -/
inductive Rounds (room : Room) (p : Peg α) : List Char → List α → List Char → Prop where
  | none (cs : List Char) : Rounds room p cs [] cs
  | more {cs mid rest : List Char} {a : α} {as : List α} (hp : Reads room p cs (matched a mid))
      (h : Rounds room p mid as rest) : Rounds room p cs (a :: as) rest

/-- A repetition goes its rounds until the next one is halted. -/
def StarRounds : {α : Type} → Room → Peg α → List Char → Result α → Prop
  | _, room, .star f p, cs, o => ∃ as mid halt, Rounds room p cs as mid ∧
      Reads room p mid (halted halt) ∧
        o = match halt with
          | .failed => matched (f as) mid
          | .tooDeep => halted .tooDeep
  | _, _, _, _, _ => True

theorem Reads.rounds {q : Peg α} {o : Result α} (h : Reads room q cs o) :
    StarRounds room q cs o := by
  induction h with
  | starEnd hp => exact ⟨[], _, .failed, .none _, hp, rfl⟩
  | starMore hp hq ihp ihq =>
    obtain ⟨as, mid, halt, hrounds, hhalt, ho⟩ := ihq
    exact ⟨_ :: as, mid, halt, .more hp hrounds, hhalt, ho⟩
  | starDeep hp => exact ⟨[], _, .tooDeep, .none _, hp, rfl⟩
  | _ => trivial

theorem Rounds.star (h : Rounds room p cs as mid) (f : List α → β) {halt : Halt}
    (hhalt : Reads room p mid (halted halt)) :
    Reads room (.star f p) cs (match halt with
      | .failed => matched (f as) mid
      | .tooDeep => halted .tooDeep) := by
  induction h generalizing f with
  | none cs =>
    cases halt with
    | failed => exact .starEnd hhalt
    | tooDeep => exact .starDeep hhalt
  | more hp h ih => exact .starMore hp (ih (fun as => f (_ :: as)) hhalt)

end rounds

/-! ## Expressions without brackets, quotes and comments -/

variable {α β γ : Type} {room inner : Room} {p : Peg α} {q : Peg β} {a b c : Nat}
  {h : α → Nat} {h' : β → Nat} {cs rest : List Char}

theorem Reads.not_tooDeep {c : Char} {o : Result α} (hread : Reads room p cs o)
    (hp : p.avoids c = true) : o ≠ halted .tooDeep := by
  induction hread with
  | seqLeft hp' ihp | choiceDeep hp' ihp =>
    simp only [Peg.avoids, Bool.and_eq_true] at hp
    simpa using ihp hp.1
  | seqRight hp' hq ihp ihq | choiceRight hp' hq ihp ihq =>
    simp only [Peg.avoids, Bool.and_eq_true] at hp
    simpa using ihq hp.2
  | starMore hp' hq ihp ihq => exact ihq hp
  | starDeep hp' ihp | absentDeep hp' ihp | guardHalt hp' ihp => simpa using ihp hp
  | deeper | noRoom | call => simp [Peg.avoids] at hp
  | _ => simp

theorem Reads.passes {o : Result α} {v : α} (hread : Reads room p cs o)
    (hp : ∀ c ∈ specials, p.avoids c = true) (ho : o = matched v rest) : Passes cs rest [] := by
  induction hread generalizing rest with
  | pure | absent | starEnd =>
    cases ho
    exact .refl _
  | char hc =>
    cases ho
    refine passes_char fun hmem => ?_
    simpa [Peg.avoids, hc] using hp _ hmem
  | seq hp' hq ihp ihq =>
    cases ho
    simp only [Peg.avoids, Bool.and_eq_true, imp_and, forall_and] at hp
    exact (ihp hp.1 rfl).trans (ihq hp.2 rfl)
  | choiceLeft hp' ihp =>
    simp only [Peg.avoids, Bool.and_eq_true, imp_and, forall_and] at hp
    exact ihp hp.1 ho
  | choiceRight hp' hq ihp ihq =>
    simp only [Peg.avoids, Bool.and_eq_true, imp_and, forall_and] at hp
    exact ihq hp.2 ho
  | starMore hp' hq ihp ihq => exact (ihp hp rfl).trans (ihq hp ho)
  | guard hp' ha ihp => exact ihp hp ho
  | deeper | call =>
    have havoids := hp '(' (by decide)
    simp [Peg.avoids] at havoids
  | _ => cases ho

namespace Peg.Nests

/-- What passes no bracket. -/
theorem flat (hpasses : ∀ {cs rest v}, Reads room p cs (matched v rest) → Passes cs rest [])
    (hstable : ∀ {cs}, ending .code cs = .code → ∀ more, p.Stable room cs (')' :: more))
    (hshallow : ∀ {cs}, ¬ Reads room p cs (halted .tooDeep)) : p.Nests room a a fun _ => a where
  passes _ _ _ hread := ⟨[], hpasses hread, .none a⟩
  stable _ _ hcs more := hstable hcs.ending more
  deepens _ _ _ hdeep := absurd hdeep hshallow

theorem plain (hp : specials.all (p.avoids ·) = true) : p.Nests room a a fun _ => a :=
  have havoids := List.all_eq_true.mp hp
  have hclose : p.avoids ')' = true := havoids ')' (by decide)
  .flat (·.passes havoids rfl) (fun _ _ => .of_avoids hclose)
    fun hdeep => hdeep.not_tooDeep hclose rfl

theorem gap : Peg.gap.Nests room a a fun _ => a := by
  refine .flat ?_ ?_ ?_
  · intro cs rest v hread
    cases hread.unique (.gap cs)
    exact passes_gap cs
  · intro cs hcs more o hread
    have hclose := splitGap_close false more hcs
    rw [hread.unique (.gap cs)]
    have hread : Reads room Peg.gap (cs ++ ')' :: more) _ := .gap _
    rw [hclose] at hread
    exact hread
  · intro cs hdeep
    cases hdeep.unique (.gap cs)

theorem someGap : Peg.someGap.Nests room a a fun _ => a := by
  -- A gap that is not empty is not empty with more text behind it.
  have hfound : ∀ {cs gap rest}, Terminal.splitGap false cs = (gap, rest) → gap ≠ [] →
      Reads room Peg.someGap cs (matched () rest) := by
    intro cs gap rest hsplit hgap
    have hsome : Terminal.someGap cs = .found () gap rest := by
      cases gap with
      | nil => exact absurd rfl hgap
      | cons c gap => simp [Terminal.someGap, hsplit]
    exact someGap_obeys.found hsome
  have hmissing : ∀ {cs rest}, Terminal.splitGap false cs = ([], rest) →
      Reads room Peg.someGap cs (halted .failed) := by
    intro cs rest hsplit
    have hnone : Terminal.someGap cs = .missing [] := by simp [Terminal.someGap, hsplit]
    exact someGap_obeys.missing hnone
  refine .flat ?_ ?_ ?_
  · intro cs rest v hread
    cases hsplit : Terminal.splitGap false cs with
    | mk gap rest' =>
      by_cases hgap : gap = []
      · cases hread.unique (hmissing (hgap ▸ hsplit))
      · cases hread.unique (hfound hsplit hgap)
        have hpass := passes_gap cs
        rwa [hsplit] at hpass
  · intro cs hcs more o hread
    have hclose := splitGap_close false more hcs
    cases hsplit : Terminal.splitGap false cs with
    | mk gap rest =>
      rw [hsplit] at hclose
      by_cases hgap : gap = []
      · subst hgap
        rw [hread.unique (hmissing hsplit)]
        exact hmissing hclose
      · rw [hread.unique (hfound hsplit hgap)]
        exact hfound hclose hgap
  · intro cs hdeep
    cases hsplit : Terminal.splitGap false cs with
    | mk gap rest =>
      by_cases hgap : gap = []
      · cases hdeep.unique (hmissing (hgap ▸ hsplit))
      · cases hdeep.unique (hfound hsplit hgap)

/-! ## Combinations -/

theorem mono {k : α → Nat} (hp : p.Nests room a b h) (hk : ∀ v, h v ≤ k v) :
    p.Nests room a b k where
  passes _ _ v hread := by
    obtain ⟨bs, hpass, hclimb⟩ := hp.passes hread
    exact ⟨bs, hpass, hclimb.mono (hk v)⟩
  stable := hp.stable
  deepens := hp.deepens

theorem seq {f : α → β → γ} {k : γ → Nat} (hp : p.Nests room a b h) (hq : q.Nests room b c h')
    (hk : ∀ v w, h v ≤ k (f v w) ∧ h' w ≤ k (f v w)) : (Peg.seq f p q).Nests room a c k where
  passes cs rest _ hread := by
    cases hread with
    | @seq _ _ _ _ _ _ _ v w _ mid _ hleft hright =>
      obtain ⟨bs, hpass, hclimb⟩ := hp.passes hleft
      obtain ⟨bs', hpass', hclimb'⟩ := hq.passes hright
      have hheight : max (h v) (h' w) ≤ k (f v w) := max_le (hk v w).1 (hk v w).2
      exact ⟨bs ++ bs', hpass.trans hpass', (hclimb.append hclimb').mono hheight⟩
  stable n cs hcs more := by
    refine .seq (hp.stable hcs more) fun hleft => ?_
    obtain ⟨bs, hpass, hclimb⟩ := hp.passes hleft
    exact hq.stable (hpass.closed (hclimb n).1 hcs) more
  deepens levels cs hroom hdeep n := by
    cases hdeep with
    | seqLeft hleft => exact hp.deepens hroom hleft n
    | seqRight hleft hright =>
      obtain ⟨bs, hpass, hclimb⟩ := hp.passes hleft
      rw [hpass.brackets, peak_append (hclimb n).1]
      exact lt_max_of_lt_right (hq.deepens hroom hright n)

/-- What comes first need not be counted if it is no higher than what comes then. -/
theorem before {k : Nat} (hp : p.Nests room a b fun _ => k) (hq : q.Nests room b c h')
    (hk : ∀ w, k ≤ h' w) : (Peg.before p q).Nests room a c h' :=
  .seq hp hq fun _ w => ⟨hk w, le_rfl⟩

theorem followedBy {k : Nat} (hp : p.Nests room a b h) (hq : q.Nests room b c fun _ => k)
    (hk : ∀ v, k ≤ h v) : (Peg.followedBy p q).Nests room a c h :=
  .seq hp hq fun v _ => ⟨le_rfl, hk v⟩

theorem map {f : α → β} (hp : p.Nests room a b h) (hk : ∀ v, h v ≤ h' (f v)) :
    (p.map f).Nests room a b h' where
  passes cs rest _ hread := by
    cases hread with
    | seq hleft hright =>
      cases hright
      exact (hp.mono (k := fun v => h' (f v)) hk).passes hleft
  stable _ _ hcs more := .map (hp.stable hcs more)
  deepens levels cs hroom hdeep n := by
    cases hdeep with
    | seqLeft hleft => exact hp.deepens hroom hleft n
    | seqRight _ hright => cases hright

theorem choice {p' : Peg α} (hp : p.Nests room a b h) (hp' : p'.Nests room a b h) :
    (Peg.choice p p').Nests room a b h where
  passes _ _ _ hread := by
    cases hread with
    | choiceLeft hleft => exact hp.passes hleft
    | choiceRight _ hright => exact hp'.passes hright
  stable _ _ hcs more := .choice (hp.stable hcs more) (hp'.stable hcs more)
  deepens _ _ hroom hdeep := by
    cases hdeep with
    | choiceRight _ hright => exact hp'.deepens hroom hright
    | choiceDeep hleft => exact hp.deepens hroom hleft

theorem call {s : Symbol α} (hs : s.body.Nests room a b h) : (Peg.call s).Nests room a b h where
  passes _ _ _ hread := by
    cases hread with
    | call hs' => exact hs.passes hs'
  stable _ _ hcs more := .call (hs.stable hcs more)
  deepens _ _ hroom hdeep := by
    cases hdeep with
    | call hs' => exact hs.deepens hroom hs'

theorem never : (Peg.never : Peg α).Nests room a b h where
  passes _ _ _ hread := by cases hread
  stable _ _ _ _ _ hread := by
    cases hread
    exact .never _ _
  deepens _ _ _ hdeep := by cases hdeep

theorem firstOf {ps : List (Peg α)} (hps : ∀ p ∈ ps, p.Nests room a b h) :
    (Peg.firstOf ps).Nests room a b h := by
  fun_induction Peg.firstOf ps with
  | case1 => exact never
  | case2 p => exact hps p (List.mem_singleton_self p)
  | case3 p ps hne ih =>
    exact choice (hps p (List.mem_cons_self ..)) (ih fun q hq => hps q (List.mem_cons_of_mem p hq))

theorem pure (v : α) : (Peg.pure v).Nests room 0 0 h where
  passes cs _ _ hread := by
    cases hread
    exact ⟨[], .refl cs, (Climbs.none 0).mono (Nat.zero_le _)⟩
  stable _ _ _ _ _ hread := by
    cases hread
    exact .pure _ _ _
  deepens _ _ _ hdeep := by cases hdeep

theorem optional {k : Option α → Nat} (hp : p.Nests room 0 0 h) (hk : ∀ v, h v ≤ k (some v)) :
    p.optional.Nests room 0 0 k := (hp.map hk).choice (.pure none)

/-- An operand, and perhaps what belongs to it. -/
theorem seqOptional {f : α → Option β → γ} {k : γ → Nat} (hp : p.Nests room 0 0 h)
    (hq : q.Nests room 0 0 h') (hnone : ∀ v, h v ≤ k (f v none))
    (hsome : ∀ v w, max (h v) (h' w) ≤ k (f v (some w))) :
    (Peg.seq f p q.optional).Nests room 0 0 k := by
  have hoptional : q.optional.Nests room 0 0 fun o => o.elim 0 h' := hq.optional fun _ => le_rfl
  refine .seq hp hoptional fun v o => ?_
  cases o with
  | none => exact ⟨hnone v, Nat.zero_le _⟩
  | some w => exact max_le_iff.mp (hsome v w)

/-- One bracket further in, with as much room as before. -/
theorem inside {k : α → Nat} (hp : p.Nests room a b h) (hk : ∀ v, h v + 1 ≤ k v) :
    p.Nests room (a + 1) (b + 1) k where
  passes _ _ v hread := by
    obtain ⟨bs, hpass, hclimb⟩ := hp.passes hread
    exact ⟨bs, hpass, hclimb.inside.mono (hk v)⟩
  stable n cs hcs more := by
    have hswap : n + (a + 1) = n + 1 + a := by omega
    exact hp.stable (hswap ▸ hcs) more
  deepens levels cs hroom hdeep n := by
    have hdeeper := hp.deepens hroom hdeep (n + 1)
    have hswap : n + 1 + a = n + (a + 1) := by omega
    rw [hswap] at hdeeper
    omega

/-- One level of brackets deeper, inside of the bracket that opens it. -/
theorem deeper {k : α → Nat} (hroom : room.inner? = some inner) (hp : p.Nests inner 0 0 h)
    (hk : ∀ v, h v + 1 ≤ k v) : p.deeper.Nests room 1 1 k where
  passes _ _ _ hread := by
    cases hread with
    | deeper hroom' hread' =>
      cases hroom.symm.trans hroom'
      exact (hp.inside hk).passes hread'
  stable n cs hcs more o hread := by
    cases hread with
    | deeper hroom' hread' =>
      cases hroom.symm.trans hroom'
      exact .deeper hroom ((hp.inside hk).stable hcs more hread')
    | noRoom hnone => simp [hroom] at hnone
  deepens levels cs hlimit hdeep n := by
    subst hlimit
    cases hdeep with
    | deeper hroom' hdeep' =>
      cases hroom.symm.trans hroom'
      cases levels with
      | zero => simp [Room.inner?] at hroom
      | succ levels =>
        obtain rfl : Room.limited levels = inner := by simpa [Room.inner?] using hroom
        have hdeeper := hp.deepens rfl hdeep' (n + 1)
        rw [Nat.add_zero] at hdeeper
        omega
    | noRoom hnone => simp [hroom] at hnone

/-- Without room for it a level of brackets is not read, but it is there. -/
theorem noRoom (hroom : room.inner? = none) : p.deeper.Nests room 1 1 h where
  passes _ _ _ hread := by
    cases hread with
    | deeper hroom' => simp [hroom] at hroom'
  stable _ _ _ _ _ hread := by
    cases hread with
    | deeper hroom' => simp [hroom] at hroom'
    | noRoom => exact .noRoom hroom
  deepens levels cs hlimit _ n := by
    subst hlimit
    cases levels with
    | zero => exact le_peak (n + 1) _
    | succ levels => simp [Room.inner?] at hroom

end Peg.Nests

/-! ## Repetitions -/

/-- The greatest height in a list. -/
def tallest (h : α → Nat) (vs : List α) : Nat := vs.foldr (fun v n => max (h v) n) 0

theorem tallest_zero (vs : List α) : tallest (fun _ => 0) vs ≤ 0 := by
  induction vs with
  | nil => exact le_rfl
  | cons v vs ih => exact max_le le_rfl ih

namespace Rounds

variable {vs : List α} {mid : List Char}

theorem passes (hp : p.Nests room 0 0 h) (hrounds : Rounds room p cs vs mid) :
    ∃ bs, Passes cs mid bs ∧ Climbs 0 0 (tallest h vs) bs := by
  induction hrounds with
  | none cs => exact ⟨[], .refl cs, .none 0⟩
  | more hread hrounds ih =>
    obtain ⟨bs, hpass, hclimb⟩ := hp.passes hread
    obtain ⟨bs', hpass', hclimb'⟩ := ih
    exact ⟨bs ++ bs', hpass.trans hpass', hclimb.append hclimb'⟩

theorem stable {n : Nat} (hp : p.Nests room 0 0 h) (hrounds : Rounds room p cs vs mid)
    (hcs : Closed n cs) (more : List Char) :
    Rounds room p (cs ++ ')' :: more) vs (mid ++ ')' :: more) := by
  induction hrounds with
  | none cs => exact .none _
  | more hread hrounds ih =>
    obtain ⟨bs, hpass, hclimb⟩ := hp.passes hread
    exact .more (hp.stable hcs more hread) (ih (hpass.closed (hclimb n).1 hcs))

end Rounds

namespace Peg.Nests

theorem star {f : List α → β} (hp : p.Nests room 0 0 h) (hk : ∀ vs, tallest h vs ≤ h' (f vs)) :
    (Peg.star f p).Nests room 0 0 h' where
  passes cs rest w hread := by
    obtain ⟨vs, mid, halt, hrounds, hhalt, ho⟩ := hread.rounds
    cases halt with
    | failed =>
      cases ho
      obtain ⟨bs, hpass, hclimb⟩ := hrounds.passes hp
      exact ⟨bs, hpass, hclimb.mono (hk vs)⟩
    | tooDeep => cases ho
  stable n cs hcs more o hread := by
    obtain ⟨vs, mid, halt, hrounds, hhalt, rfl⟩ := hread.rounds
    obtain ⟨bs, hpass, hclimb⟩ := hrounds.passes hp
    have hmid := hp.stable (hpass.closed (hclimb n).1 hcs) more hhalt
    have hstar := (hrounds.stable hp hcs more).star f hmid
    cases halt with
    | failed => exact hstar
    | tooDeep => exact hstar
  deepens levels cs hroom hdeep n := by
    obtain ⟨vs, mid, halt, hrounds, hhalt, ho⟩ := hdeep.rounds
    cases halt with
    | failed => cases ho
    | tooDeep =>
      obtain ⟨bs, hpass, hclimb⟩ := hrounds.passes hp
      rw [hpass.brackets, peak_append (hclimb n).1]
      exact lt_max_of_lt_right (hp.deepens hroom hhalt n)

end Peg.Nests

end FilterQuery.Grammar
