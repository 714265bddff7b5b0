import LbBind.Update.Assertions

/-! What an update keeps: one SOA record and some NS records at the apex, no CNAME record beside
other data, and no two CNAME or DNAME records. The recorded diff leads from the old version to the
new one. An assertion fails exactly if a record of the old type SIG is looked for under the type that
it covers. -/

namespace LbBind.Update

open Lib Call Diff List Tuple
open Rbtdb (Typepair)
open Zone
open Rdatatype (cname dname isdnssec issingleton ns rrsig sig soa)

variable {ρ : Type} [LinearOrder ρ] {env : Env ρ} {rr : Rr ρ} {x x' : State ρ} {old : Contents ρ}
  {ts : List (Tuple ρ)}

structure Stored (z : Contents ρ) : Prop where
  free : changes.Free (records z)
  covers : ∀ r ∈ records z, r.type.base ≠ sig → r.type.base ≠ rrsig → r.type.covers = 0

structure Loadable (origin : List (List ℕ)) (z : Contents ρ) : Prop where
  soa : ∃ r ∈ records z, r.place = ⟨false, origin⟩ ∧
    ∀ r' ∈ records z, r'.type.base = Rdatatype.soa ↔ r' = r
  ns : ∃ r ∈ records z, r.place = ⟨false, origin⟩ ∧ r.type.base = Rdatatype.ns
  cname : ∀ r ∈ records z, ∀ r' ∈ records z, r.place = r'.place → r.type.base = Rdatatype.cname →
    r'.type.base ≠ Rdatatype.cname → isdnssec r'.type.base
  single : ∀ r ∈ records z, ∀ r' ∈ records z, r.place = r'.place → r.type.base = r'.type.base →
    r.type.base = Rdatatype.cname ∨ r.type.base = dname → r = r'
  ttl : ∀ r ∈ records z, ∀ r' ∈ records z, r.place = r'.place → r.type = r'.type → r.ttl = r'.ttl

variable {z : Contents ρ} {r : Record ρ} {name : List (List ℕ)} {p : Found ρ → Bool}
  {types : List Typepair}

omit [LinearOrder ρ] in
lemma Stored.eq_of_singleton (h : Stored z) {r' : Record ρ} (hr : r ∈ records z)
    (hr' : r' ∈ records z) (hplace : r.place = r'.place) (hbase : r.type.base = r'.type.base)
    (htype : r.type.base = cname ∨ r.type.base = dname ∨ r.type.base = soa) :
    r = r' := by
  by_contra hne
  have hsig : r.type.base ≠ sig ∧ r.type.base ≠ rrsig := by
    rcases htype with h | h | h <;> rw [h] <;> decide
  have hcovers := h.covers r hr hsig.1 hsig.2
  have hcovers' := h.covers r' hr' (hbase ▸ hsig.1) (hbase ▸ hsig.2)
  have heq : r.type = r'.type := by
    cases htr : r.type
    cases htr' : r'.type
    simp_all
  refine h.free r hr r' hr' hne ⟨hplace, .inl ⟨heq, .inr ?_⟩⟩
  rcases htype with h | h | h <;> simp [h, issingleton]

omit [LinearOrder ρ] in
lemma Stored.ttl_eq (h : Stored z) {r' : Record ρ} (hr : r ∈ records z) (hr' : r' ∈ records z)
    (hplace : r.place = r'.place) (htype : r.type = r'.type) : r.ttl = r'.ttl := by
  by_contra hne
  exact h.free r hr r' hr' (fun heq => hne (heq ▸ rfl)) ⟨hplace, .inl ⟨htype, .inl hne⟩⟩

lemma Loadable.dels (h : Loadable env.origin x.ver) (happlied : Applied env ts x x')
    (hdel : ∀ t ∈ ts, t.op.adds = false)
    (hsoa : ∀ t ∈ ts, t.name = env.origin → t.type.base ≠ Rdatatype.soa)
    (hns : ∃ r ∈ records x.ver, r.place = ⟨false, env.origin⟩ ∧ r.type.base = Rdatatype.ns ∧
      r ∉ ts.map record) : Loadable env.origin x'.ver := by
  have hsub : ∀ r ∈ records x'.ver, r ∈ records x.ver := fun r hr => by
    rcases happlied.mem hr with hmem | ⟨t, ht, hadd, -⟩
    · exact hmem
    · rw [hdel t ht] at hadd
      cases hadd
  obtain ⟨r0, hr0, hplace0, hsole⟩ := h.soa
  have hstays : r0 ∉ ts.map record := fun hmem => by
    obtain ⟨t, ht, heq⟩ := mem_map.mp hmem
    have hname : t.name = env.origin := congrArg Place.name ((congrArg Record.place heq).trans hplace0)
    exact hsoa t ht hname ((congrArg (·.type.base) heq).trans ((hsole r0 hr0).mpr rfl))
  obtain ⟨r1, hr1, hplace1, hbase1, hmem1⟩ := hns
  exact ⟨⟨r0, (happlied.mem_iff hstays).mpr hr0, hplace0, fun r' hr' => hsole r' (hsub r' hr')⟩,
    ⟨r1, (happlied.mem_iff hmem1).mpr hr1, hplace1, hbase1⟩,
    fun r hr r' hr' => h.cname r (hsub r hr) r' (hsub r' hr'),
    fun r hr r' hr' => h.single r (hsub r hr) r' (hsub r' hr'),
    fun r hr r' hr' => h.ttl r (hsub r hr) r' (hsub r' hr')⟩

lemma Stored.dels (h : Stored x.ver) (happlied : Applied env ts x x')
    (hdel : ∀ t ∈ ts, t.op.adds = false) : Stored x'.ver := by
  refine ⟨happlied.free h.free, fun r hr => ?_⟩
  rcases happlied.mem hr with hmem | ⟨t, ht, hadd, -⟩
  · exact h.covers r hmem
  · rw [hdel t ht] at hadd
    cases hadd

lemma isdnssec_of_nsec3 {type : Typepair}
    (h : (place name (tupleType type)).nsec3) : isdnssec type.base := by
  simp only [place, tupleType, Bool.or_eq_true, beq_iff_eq] at h
  rcases h with h | h
  · rw [h]
    decide
  · split_ifs at h with hrrsig
    · rw [hrrsig]
      decide
    · cases h

section
variable (hadds : AddsRr rr x ts) (happlied : Applied env ts x x')
include hadds

omit [LinearOrder ρ] in
lemma AddsRr.record {t : Tuple ρ} (ht : t ∈ ts) (hadd : t.op.adds) :
    t.record.place = place rr.name (tupleType ⟨rr.type, rr.covers⟩) ∧
      t.record.type = tupleType ⟨rr.type, rr.covers⟩ := by
  obtain ⟨dels, adds, rfl, hdels, htuples, -⟩ := hadds.tuples
  have htype : t.type = tupleType ⟨rr.type, rr.covers⟩ := by
    simp only [mem_append, mem_singleton, or_assoc] at ht
    rcases ht with ht | ht | rfl
    · rw [hdels t ht] at hadd
      cases hadd
    · exact (htuples t ht).2.1
    · rfl
  exact ⟨by rw [record, (hadds.name t ht).1, htype], htype⟩

include happlied

lemma AddsRr.mem_new : (rr.tuple .add).record ∈ records x'.ver := by
  obtain ⟨dels, adds, rfl, -⟩ := hadds.tuples
  obtain ⟨y, -, w, hone, heq, -⟩ := happlied.split
  rw [heq]
  exact hone.mem_of_add rfl

/-- What is added is the new record, or was there with another TTL. -/
lemma AddsRr.added {t : Tuple ρ} (ht : t ∈ ts) (hadd : t.op.adds) :
    t = rr.tuple .add ∨ ∃ ttl ≠ t.ttl, { t.record with ttl := ttl } ∈ records x.ver := by
  obtain ⟨dels, adds, rfl, hdels, htuples, -⟩ := hadds.tuples
  simp only [mem_append, mem_singleton, or_assoc] at ht
  rcases ht with ht | ht | rfl
  · rw [hdels t ht] at hadd
    cases hadd
  · obtain ⟨-, -, -, -, ttl, httl, hdel⟩ := htuples t ht
    obtain ⟨y, hy, -⟩ := happlied.split
    obtain ⟨w, hw, -⟩ := hy.split
    exact .inr ⟨ttl, httl, hw.mem_of_del (fun u hu => by rw [hdels u hu]; rfl) hdel⟩
  · exact .inl rfl

variable {r : Record ρ}

lemma AddsRr.mem (hr : r ∈ records x'.ver) : r ∈ records x.ver ∨
    r.place = place rr.name (tupleType ⟨rr.type, rr.covers⟩) ∧
      r.type = tupleType ⟨rr.type, rr.covers⟩ := by
  rcases happlied.mem hr with hmem | ⟨t, ht, hadd, rfl⟩
  · exact .inl hmem
  · exact .inr (hadds.record ht hadd)

lemma AddsRr.mem_iff (hr : r.place.name ≠ rr.name ∨ r.type.base ≠ rr.type) :
    r ∈ records x'.ver ↔ r ∈ records x.ver := by
  refine happlied.mem_iff fun hmem => ?_
  obtain ⟨t, ht, rfl⟩ := mem_map.mp hmem
  obtain ⟨hname, htype⟩ := hadds.name t ht
  exact hr.elim (fun h => h hname) fun h => h htype

lemma AddsRr.stored (h : Stored x.ver) : Stored x'.ver := by
  refine ⟨happlied.free h.free, fun r hr hsig hrrsig => ?_⟩
  rcases hadds.mem happlied hr with hmem | ⟨-, htype⟩
  · exact h.covers r hmem hsig hrrsig
  · rw [htype] at hrrsig ⊢
    exact if_neg hrrsig

lemma AddsRr.soa (h : Loadable env.origin x.ver) (hstored : Stored x.ver)
    (hexists : rr.type = soa → rrsetExists x.ver rr.name soa 0) :
    ∃ r ∈ records x'.ver, r.place = ⟨false, env.origin⟩ ∧
      ∀ r' ∈ records x'.ver, r'.type.base = soa ↔ r' = r := by
  obtain ⟨r0, hr0, hplace0, hsole⟩ := h.soa
  by_cases hsoa : rr.type = Rdatatype.soa
  · -- the name is the apex, and what is there afterwards is the new record
    obtain ⟨ttl, d, hmem⟩ := (rrsetExists_iff (by decide)).mp (hexists hsoa)
    have hname : rr.name = env.origin := by
      have heq := (hsole _ hmem).mp rfl
      exact congrArg Place.name ((congrArg Record.place heq).trans hplace0)
    have hnew : ∀ r : Record ρ, r.place = place rr.name (tupleType ⟨rr.type, rr.covers⟩) →
        r.place = ⟨false, env.origin⟩ := by
      intro r hr
      rw [hr, hname, hsoa, rr.covers_eq (by rw [hsoa]; decide) (by rw [hsoa]; decide)]
      rfl
    have hmem' := hadds.mem_new happlied
    have hplace' : (rr.tuple .add).record.place = ⟨false, env.origin⟩ := hnew _ rfl
    refine ⟨_, hmem', hplace', fun r' hr' => ⟨fun hbase => ?_, fun heq => heq ▸ hsoa⟩⟩
    have hplace : r'.place = ⟨false, env.origin⟩ := by
      rcases hadds.mem happlied hr' with hold | ⟨hplace, -⟩
      · exact (hsole r' hold).mp hbase ▸ hplace0
      · exact hnew r' hplace
    exact (hadds.stored happlied hstored).eq_of_singleton hr' hmem' (hplace.trans hplace'.symm)
      (hbase.trans hsoa.symm) (.inr (.inr hbase))
  · have hother : ∀ r : Record ρ, r.type.base = Rdatatype.soa →
        (r ∈ records x'.ver ↔ r ∈ records x.ver) :=
      fun r hr => hadds.mem_iff happlied (.inr fun heq => hsoa (heq ▸ hr))
    have hbase0 := (hsole r0 hr0).mpr rfl
    refine ⟨r0, (hother r0 hbase0).mpr hr0, hplace0, fun r' hr' => ⟨fun hbase => ?_, fun heq => heq ▸ hbase0⟩⟩
    exact (hsole r' ((hother r' hbase).mp hr')).mp hbase

lemma AddsRr.ns (h : Loadable env.origin x.ver) :
    ∃ r ∈ records x'.ver, r.place = ⟨false, env.origin⟩ ∧ r.type.base = ns := by
  obtain ⟨r1, hr1, hplace1, hbase1⟩ := h.ns
  by_cases hns : rr.name = env.origin ∧ rr.type = Rdatatype.ns
  · refine ⟨_, hadds.mem_new happlied, ?_, hns.2⟩
    rw [Rr.tuple, Tuple.record, hns.1, hns.2,
      rr.covers_eq (by rw [hns.2]; decide) (by rw [hns.2]; decide)]
    rfl
  · refine ⟨r1, (hadds.mem_iff happlied ?_).mpr hr1, hplace1, hbase1⟩
    rw [hplace1, hbase1]
    by_contra hcon
    rw [not_or, not_not, not_not] at hcon
    exact hns ⟨hcon.1.symm, hcon.2.symm⟩

section
variable (h : Loadable env.origin x.ver) (hstored : Stored x.ver)
  (hcname : rr.type = Rdatatype.cname → cnameIncompatibleRrsetExists x.ver rr.name = false)
  (hother : rr.type ≠ Rdatatype.cname → rrsetExists x.ver rr.name Rdatatype.cname 0 → isdnssec rr.type)
include h hstored hcname hother

lemma AddsRr.cname {r' : Record ρ} (hr : r ∈ records x'.ver) (hr' : r' ∈ records x'.ver)
    (hplace : r.place = r'.place) (hbase : r.type.base = cname)
    (hbase' : r'.type.base ≠ cname) : isdnssec r'.type.base := by
  rcases hadds.mem happlied hr with hold | ⟨hrplace, htype⟩
  · rcases hadds.mem happlied hr' with hold' | ⟨hrplace', htype'⟩
    · exact h.cname r hold r' hold' hplace hbase hbase'
    · -- the new record stands beside a CNAME record
      have hne : rr.type ≠ Rdatatype.cname := fun heq => hbase' (by rw [htype', tupleType, heq])
      rw [htype']
      cases hnsec3 : (place rr.name (tupleType ⟨rr.type, rr.covers⟩)).nsec3 with
      | true => exact (isdnssec_of_nsec3 hnsec3 : isdnssec rr.type)
      | false =>
        refine hother hne ((rrsetExists_iff (by decide)).mpr ⟨r.ttl, r.rdata, ?_⟩)
        have hcovers := hstored.covers r hold (by rw [hbase]; decide) (by rw [hbase]; decide)
        have hrplace : r.place = ⟨false, rr.name⟩ := by
          rw [hplace, hrplace', ← hnsec3]
          rfl
        have htype : r.type = ⟨Rdatatype.cname, 0⟩ := by rw [← hbase, ← hcovers]
        have heq : (⟨findnode rr.name Rdatatype.cname 0, ⟨Rdatatype.cname, 0⟩, r.ttl, r.rdata⟩ :
            Record ρ) = r := Record.ext hrplace.symm htype.symm rfl rfl
        rwa [heq]
  · have hrr : rr.type = Rdatatype.cname := by rw [htype] at hbase; exact hbase
    rcases hadds.mem happlied hr' with hold' | ⟨-, htype'⟩
    · -- a CNAME record is added beside another one
      have hrplace' : r'.place = ⟨false, rr.name⟩ := by
        rw [← hplace, hrplace, hrr]
        rfl
      obtain ⟨s, hs, -⟩ := hold'
      obtain ⟨hmem, hstype⟩ := (Node.find_eq_some_iff _ s _).mp hs
      rw [hrplace'] at hmem
      have hcompatible := any_eq_false.mp (hcname hrr) s hmem
      simpa [hstype, hbase'] using hcompatible
    · exact absurd (by rw [htype', tupleType, hrr]) hbase'

lemma AddsRr.loadable
    (hexists : rr.type = Rdatatype.soa → rrsetExists x.ver rr.name Rdatatype.soa 0) :
    Loadable env.origin x'.ver := by
  have hstored' := hadds.stored happlied hstored
  refine ⟨hadds.soa happlied h hstored hexists, hadds.ns happlied h, fun r hr r' hr' => ?_,
    fun r hr r' hr' hplace hbase htype => ?_, fun r hr r' hr' => hstored'.ttl_eq hr hr'⟩
  · exact hadds.cname happlied h hstored hcname hother hr hr'
  · exact hstored'.eq_of_singleton hr hr' hplace hbase (htype.imp_right .inl)

end
end

section
omit [LinearOrder ρ]

lemma Deletes.op
    (h : Deletes p name types ts) : ∀ t ∈ ts, t.op.adds = false := fun t ht => by
  obtain ⟨found, -, -, rfl⟩ := h t ht
  rfl

lemma Deletes.apex (h : Deletes p name types ts) {type : ℕ}
    (hp : name = env.origin → ∀ found : Found ρ, found.type ∈ types → p found →
      found.type.base ≠ type) :
    ∀ t ∈ ts, t.name = env.origin → t.type.base ≠ type := fun t ht hname => by
  obtain ⟨found, hfound, hpfound, rfl⟩ := h t ht
  exact hp hname found hfound hpfound

lemma not_mem_of_type (hplace : r.place = ⟨false, env.origin⟩)
    (h : ∀ t ∈ ts, t.name = env.origin → t.type.base ≠ r.type.base) : r ∉ ts.map record := by
  intro hmem
  obtain ⟨t, ht, rfl⟩ := mem_map.mp hmem
  exact h t ht (congrArg Place.name hplace) rfl

end

lemma exists_ns (h : Loadable env.origin x.ver) (hstored : Stored x.ver)
    (hname : rr.name = env.origin) (hns : rr.type = ns)
    (hlength : (foreachRr x.ver rr.name ns 0).length ≠ 1)
    (hdels : Deletes (rrEqual env rr) rr.name [⟨rr.type, rr.covers⟩] ts) :
    ∃ r ∈ records x.ver, r.place = ⟨false, env.origin⟩ ∧ r.type.base = ns ∧
      r ∉ ts.map record := by
  by_contra hcon
  obtain ⟨r1, hr1, hplace1, hbase1⟩ := h.ns
  have hdeleted : ∀ r ∈ records x.ver, r.place = ⟨false, env.origin⟩ → r.type.base = ns →
      r.rdata = rr.rdata := by
    intro r hr hplace hbase
    by_contra hne
    refine hcon ⟨r, hr, hplace, hbase, fun hmem => ?_⟩
    obtain ⟨t, ht, rfl⟩ := mem_map.mp hmem
    obtain ⟨found, -, hequal, rfl⟩ := hdels t ht
    simp only [rrEqual, hns, Bool.and_eq_true] at hequal
    exact hne (env.rdatas.casecompare_ns _ _ hequal.2).symm
  have hfound : ∀ f ∈ foreachRr x.ver rr.name ns 0, f.rdata = rr.rdata := by
    intro f hf
    have hmem := ((mem_foreachRr (by decide)).mp hf).2
    exact hdeleted _ hmem (by rw [hname]; rfl) rfl
  have hthere : (⟨⟨ns, 0⟩, r1.ttl, r1.rdata⟩ : Found ρ) ∈
      foreachRr x.ver rr.name ns 0 := by
    have hcovers := hstored.covers r1 hr1 (by rw [hbase1]; decide) (by rw [hbase1]; decide)
    have heq : (⟨findnode rr.name ns 0, ⟨ns, 0⟩, r1.ttl, r1.rdata⟩ : Record ρ) =
        r1 := by
      refine Record.ext (by rw [hplace1, hname]; rfl) ?_ rfl rfl
      rw [← hbase1, ← hcovers]
    exact (mem_foreachRr (by decide)).mpr ⟨rfl, heq ▸ hr1⟩
  have hnodup : ((foreachRr x.ver rr.name ns 0).map Found.rdata).Nodup :=
    nodup_foreachRr (by decide)
  -- there are at least two records with different rdatas
  rcases hlist : foreachRr x.ver rr.name ns 0 with _ | ⟨f, _ | ⟨g, rest⟩⟩
  · rw [hlist] at hthere
    cases hthere
  · rw [hlist] at hlength
    exact hlength rfl
  · rw [hlist] at hnodup hfound
    rw [map_cons, map_cons, nodup_cons] at hnodup
    refine hnodup.1 ?_
    rw [hfound f (by simp), ← hfound g (by simp)]
    exact .head _

section
variable (happlied : Applied env ts x x')
include happlied

lemma Deletes.subset (hdel : Deletes p name types ts) : records x'.ver ⊆ records x.ver := by
  intro r hr
  rcases happlied.mem hr with hmem | ⟨t, ht, hadd, -⟩
  · exact hmem
  · rw [hdel.op t ht] at hadd
    cases hadd

lemma Effect.subset (heffect : Effect env rr x ts)
    (hcls : rr.updateClass ≠ env.rdclass) : records x'.ver ⊆ records x.ver := by
  cases heffect with
  | none => exact happlied.1.subset
  | add cls => exact absurd cls hcls
  | delAny type dels => exact dels.subset happlied
  | delType type dels => exact dels.subset happlied
  | delRr cls dels => exact dels.subset happlied

lemma Effect.loadable (heffect : Effect env rr x ts)
    (h : Loadable env.origin x.ver) (hstored : Stored x.ver) :
    Loadable env.origin x'.ver ∧ Stored x'.ver := by
  obtain ⟨r1, hr1, hplace1, hbase1⟩ := h.ns
  have hbase : ∀ found : Found ρ, found.type ∈ [(⟨rr.type, rr.covers⟩ : Typepair)] →
      found.type.base = rr.type := fun found hfound => by rw [mem_singleton.mp hfound]
  cases heffect with
  | none =>
    exact ⟨h.dels happlied (by simp) (by simp) ⟨r1, hr1, hplace1, hbase1, by simp⟩,
      hstored.dels happlied (by simp)⟩
  | add cls adds cname other soa =>
    exact ⟨adds.loadable happlied h hstored cname other soa, adds.stored happlied hstored⟩
  | delAny type dels apex below =>
    have hsoa : ∀ t ∈ ts, t.name = env.origin → t.type.base ≠ soa := by
      refine dels.apex fun hname found _ hp => ?_
      rw [apex hname] at hp
      exact fun heq => by simp [typeNotSoaNorNs, heq] at hp
    have hns : ∀ t ∈ ts, t.name = env.origin → t.type.base ≠ r1.type.base := by
      refine dels.apex fun hname found _ hp => ?_
      rw [apex hname] at hp
      exact fun heq => by simp [typeNotSoaNorNs, heq, hbase1] at hp
    exact ⟨h.dels happlied dels.op hsoa ⟨r1, hr1, hplace1, hbase1, not_mem_of_type hplace1 hns⟩,
      hstored.dels happlied dels.op⟩
  | delType type dels apex =>
    have hsoa : ∀ t ∈ ts, t.name = env.origin → t.type.base ≠ soa :=
      dels.apex fun hname found hfound _ => hbase found hfound ▸ (apex hname).1
    have hns : ∀ t ∈ ts, t.name = env.origin → t.type.base ≠ r1.type.base :=
      dels.apex fun hname found hfound _ => hbase found hfound ▸ hbase1.symm ▸ (apex hname).2
    exact ⟨h.dels happlied dels.op hsoa ⟨r1, hr1, hplace1, hbase1, not_mem_of_type hplace1 hns⟩,
      hstored.dels happlied dels.op⟩
  | delRr cls dels apex =>
    have hsoa : ∀ t ∈ ts, t.name = env.origin → t.type.base ≠ soa :=
      dels.apex fun hname found hfound _ => hbase found hfound ▸ (apex hname).1
    refine ⟨h.dels happlied dels.op hsoa ?_, hstored.dels happlied dels.op⟩
    by_cases hns : rr.name = env.origin ∧ rr.type = ns
    · exact exists_ns h hstored hns.1 hns.2 ((apex hns.1).2 hns.2) dels
    · refine ⟨r1, hr1, hplace1, hbase1, not_mem_of_type hplace1 (dels.apex fun hname found hfound _ => ?_)⟩
      rw [hbase found hfound, hbase1]
      exact fun heq => hns ⟨hname, heq⟩

def Log (old : Contents ρ) (x : State ρ) : Prop :=
  changes.Run x.diff (records old) (records x.ver) ∧ (x.diff.map Tuple.record).Nodup

lemma Log.applied (h : Log old x)
    (hrun : changes.Run ts (records x.ver) (records x'.ver)) : Log old x' := by
  induction ts generalizing x with
  | nil =>
    rw [Log, happlied.1, happlied.2.1]
    exact h
  | cons t ts ih =>
    obtain ⟨y, ⟨hdiff, -, hy⟩, hrest⟩ := happlied
    have hver : records y.ver = changes.after t (records x.ver) := by
      rcases hy with ⟨-, heq⟩ | ⟨hadd, hmem, -⟩
      · exact heq
      · exact absurd hmem ((Changes.ok_add hadd).mp hrun.1).1
    have hlog : Log old y := by
      rw [Log, hdiff, hver]
      exact run_appendminimal (fun _ => rfl) rfl h.1 h.2 hrun.1
    exact ih hrest hlog (hver ▸ hrun.2)

lemma AddsRr.run (hadds : AddsRr rr x ts) (hstored : Stored x.ver) (hnoded : Noded x) :
    changes.Run ts (records x.ver) (records x'.ver) := by
  obtain ⟨dels, adds, rfl, hdels, htuples, hnodup⟩ := hadds.tuples
  refine happlied.run (fun t ht hadd => ?_) ?_
  · rcases hadds.added happlied ht hadd with rfl | ⟨ttl, httl, hmem⟩
    · exact hadds.new hnoded
    · exact fun hmem' => httl (hstored.ttl_eq hmem hmem' rfl rfl)
  · have hfilter : (dels ++ adds ++ [rr.tuple .add]).filter (fun t => t.op.adds) =
        adds ++ [rr.tuple .add] := by
      have hdels' : dels.filter (fun t => t.op.adds) = [] :=
        filter_eq_nil_iff.mpr fun t ht => by simp [hdels t ht, Op.adds]
      have hadds' : adds.filter (fun t => t.op.adds) = adds :=
        filter_eq_self.mpr fun t ht => by simp [(htuples t ht).1, Op.adds]
      rw [filter_append, filter_append, hdels', hadds']
      rfl
    rw [hfilter]
    refine List.Nodup.of_map Record.rdata ?_
    rw [map_map, map_append]
    refine List.Nodup.append hnodup (by simp) ?_
    simp only [map_cons, map_nil, disjoint_singleton]
    intro hmem
    obtain ⟨t, ht, heq⟩ := mem_map.mp hmem
    exact (htuples t ht).2.2.1 heq

lemma Deletes.run (h : Deletes p name types ts) :
    changes.Run ts (records x.ver) (records x'.ver) := by
  refine happlied.run (fun t ht hadd => ?_) ?_
  · rw [h.op t ht] at hadd
    cases hadd
  · rw [filter_eq_nil_iff.mpr fun t ht => by simp [h.op t ht]]
    exact nodup_nil

lemma Effect.run (heffect : Effect env rr x ts)
    (hstored : Stored x.ver) (hnoded : Noded x) :
    changes.Run ts (records x.ver) (records x'.ver) := by
  cases heffect with
  | none => exact happlied.1
  | add cls adds => exact adds.run happlied hstored hnoded
  | delAny type dels => exact dels.run happlied
  | delType type dels => exact dels.run happlied
  | delRr cls dels => exact dels.run happlied

end

/-- The records of the old version and those that the section adds. -/
def named (env : Env ρ) (old : Contents ρ) (rest : List (Rr ρ)) : Set (Record ρ) :=
  records old ∪ {r | ∃ rr ∈ rest, rr.updateClass = env.rdclass ∧ r = (rr.tuple .add).record}

/-- One of the records, with any TTL. -/
def Within (U : Set (Record ρ)) (r : Record ρ) : Prop :=
  ∃ u ∈ U, u.place = r.place ∧ u.type = r.type ∧ u.rdata = r.rdata

structure Kept (env : Env ρ) (old : Contents ρ) (U : Set (Record ρ)) (x : State ρ) : Prop where
  loadable : Loadable env.origin x.ver
  stored : Stored x.ver
  noded : Noded x
  within : ∀ r ∈ records x.ver, Within U r
  log : Log old x

section
variable {U : Set (Record ρ)}

lemma Effect.within (heffect : Effect env rr x ts) (happlied : Applied env ts x x')
    (hnew : rr.updateClass = env.rdclass → (rr.tuple .add).record ∈ U)
    (h : ∀ r ∈ records x.ver, Within U r) : ∀ r ∈ records x'.ver, Within U r := by
  by_cases hcls : rr.updateClass = env.rdclass
  · cases heffect with
    | none => exact happlied.1 ▸ h
    | add cls adds =>
      intro r hr
      rcases happlied.mem hr with hmem | ⟨t, ht, hadd, rfl⟩
      · exact h r hmem
      rcases adds.added happlied ht hadd with rfl | ⟨ttl, -, hmem⟩
      · exact ⟨_, hnew hcls, rfl, rfl, rfl⟩
      · obtain ⟨u, hu, hplace, htype, hrdata⟩ := h _ hmem
        exact ⟨u, hu, hplace, htype, hrdata⟩
    | delAny type dels => exact fun r hr => h r (dels.subset happlied hr)
    | delType type dels => exact fun r hr => h r (dels.subset happlied hr)
    | delRr cls dels => exact fun r hr => h r (dels.subset happlied hr)
  · exact fun r hr => h r (heffect.subset happlied hcls hr)

omit [LinearOrder ρ] in
lemma Kept.checked (h : Kept env old U x) (hsized : ∀ r ∈ U, Sized env r.type.base r.rdata) :
    Checked env x.ver := by
  constructor
  · intro r hr
    obtain ⟨u, hu, -, htype, hrdata⟩ := h.within r hr
    exact htype ▸ hrdata ▸ hsized u hu
  · intro r hr r' hr' hbase hbase'
    obtain ⟨r0, -, -, hsole⟩ := h.loadable.soa
    exact ((hsole r hr).mp hbase).trans ((hsole r' hr').mp hbase').symm

lemma updateRr_kept (hsized : ∀ r ∈ U, Sized env r.type.base r.rdata) (h : Kept env old U x)
    (hclass : prescanClass env rr = .ok ())
    (hnew : rr.updateClass = env.rdclass → (rr.tuple .add).record ∈ U) (hsig : ¬Aborts env rr x) :
    Meets (· = x) (updateRr env rr) (fun _ x' => Kept env old U x') fun _ _ => True := by
  have hsound := updateRr_sound (h.checked hsized) hclass (fun hcls => hsized _ (hnew hcls)) hsig
  refine hsound.with_run.mono (fun _ h => h) (fun _ y hy => ?_) fun _ _ h => h
  obtain ⟨ts, happlied, heffect⟩ := (updateRr_ends hclass).1 _ _ hy.2
  obtain ⟨hload, hstored⟩ := heffect.loadable happlied h.loadable h.stored
  exact ⟨hload, hstored, happlied.noded h.noded, heffect.within happlied hnew h.within,
    h.log.applied happlied (heffect.run happlied h.stored h.noded)⟩

/-- No record of the section is one that makes an assertion fail, when its turn comes. -/
def Passes (env : Env ρ) (rest : List (Rr ρ)) (x : State ρ) : Prop :=
  ∀ pre rr post y, rest = pre ++ rr :: post →
    (updateSection env pre).run x = some (.ok (), y) → ¬Aborts env rr y

lemma Passes.tail {rest : List (Rr ρ)} (h : Passes env (rr :: rest) x)
    (hrun : (updateRr env rr).run x = some (.ok (), x')) : Passes env rest x' := by
  intro pre rr' post y hrest hpre
  refine h (rr :: pre) rr' post y (by rw [hrest, cons_append]) ?_
  exact bind_eq_ok.mpr ⟨(), x', hrun, hpre⟩

lemma updateSection_kept {rest : List (Rr ρ)} (hsized : ∀ r ∈ U, Sized env r.type.base r.rdata)
    (h : Kept env old U x) (hscan : ∀ rr ∈ rest, prescanClass env rr = .ok ())
    (hnew : ∀ rr ∈ rest, rr.updateClass = env.rdclass → (rr.tuple .add).record ∈ U)
    (hpasses : Passes env rest x) :
    Meets (· = x) (updateSection env rest) (fun _ x' => Kept env old U x') fun _ _ => True := by
  induction rest generalizing x with
  | nil => exact .pure fun _ hx => hx ▸ h
  | cons rr rest ih =>
    have hfirst : ¬Aborts env rr x := hpasses [] rr rest x rfl rfl
    refine (updateRr_kept hsized h (hscan rr (.head _)) (hnew rr (.head _)) hfirst).with_run.next ?_
    rintro _ y ⟨hy, hrun⟩
    exact ih hy (fun rr' hrr' => hscan rr' (.tail _ hrr')) (fun rr' hrr' => hnew rr' (.tail _ hrr'))
      (hpasses.tail hrun)

lemma updateSection_none {pre post : List (Rr ρ)} {y : State ρ}
    (hpre : (updateSection env pre).run x = some (.ok (), y)) (hclass : prescanClass env rr = .ok ())
    (h : Aborts env rr y) : (updateSection env (pre ++ rr :: post)).run x = none := by
  induction pre generalizing x with
  | nil =>
    cases hpre
    simp [updateSection, h.run_eq hclass]
  | cons rr' pre ih =>
    obtain ⟨_, w, hw, hrest⟩ := bind_eq_ok.mp hpre
    simp [updateSection, hw, ih hrest]

lemma Kept.replay (h : Kept env old U x) (hold : changes.Free (records old)) (hU : Bounded U)
    (hsub : records old ⊆ U) :
    ∃ z, Diff.apply x.diff old = .ok z ∧ ∀ p type, (z p).find type = (x.ver p).find type := by
  have hbounded : Bounded {r | Within U r} := by
    intro p type
    obtain ⟨F, hcard, hF⟩ := hU p type
    refine ⟨F, hcard, ?_⟩
    rintro r ⟨u, hu, hplace, htype, hrdata⟩ hp ht
    exact hrdata ▸ hF u hu (hplace.trans hp) (htype.trans ht)
  obtain ⟨hdiff, hnodup⟩ := h.log
  obtain ⟨z, hz, hrecords⟩ := apply_of_run hold hbounded (fun r hr => ⟨r, hsub hr, rfl, rfl, rfl⟩)
    (fun t ht hadd => h.within _ (Changes.mem_of_run_add hdiff hnodup ht hadd)) hdiff
  exact ⟨z, hz, records_eq_iff.mp hrecords⟩

end

/-- An update section that passes the prescan is processed, and leaves a version that can be loaded
and to which the diff leads, if and only if no record of type SIG is looked for under the type that it
covers at a name with a node. -/
theorem updateSection_loadable_iff {rest : List (Rr ρ)} {nodes : Place → Bool}
    (h : Loadable env.origin old) (hstored : Stored old) (hnoded : Noded ⟨old, [], false, nodes⟩)
    (hsized : ∀ r ∈ named env old rest, Sized env r.type.base r.rdata)
    (hbounded : Bounded (named env old rest)) (hscan : prescan env old rest = .ok ()) :
    (∃ result x, (updateSection env rest).run ⟨old, [], false, nodes⟩ = some (result, x) ∧
      (result = .ok () → Loadable env.origin x.ver ∧ Stored x.ver ∧
        ∃ z, Diff.apply x.diff old = .ok z ∧ ∀ p type, (z p).find type = (x.ver p).find type)) ↔
      Passes env rest ⟨old, [], false, nodes⟩ := by
  have hclass : ∀ rr ∈ rest, prescanClass env rr = .ok () :=
    fun rr hrr => (prescanRr_ok (prescan_mem hscan hrr)).1
  constructor
  · rintro ⟨result, x, hrun, -⟩ pre rr post y rfl hpre haborts
    rw [updateSection_none hpre (hclass rr (by simp)) haborts] at hrun
    cases hrun
  · intro hpasses
    have hstart : Kept env old (named env old rest) ⟨old, [], false, nodes⟩ :=
      ⟨h, hstored, hnoded, fun r hr => ⟨r, .inl hr, rfl, rfl, rfl⟩, rfl, nodup_nil⟩
    have hnew : ∀ rr ∈ rest, rr.updateClass = env.rdclass → (rr.tuple .add).record ∈ named env old rest :=
      fun rr hrr hcls => .inr ⟨rr, hrr, hcls, rfl⟩
    rcases updateSection_kept hsized hstart hclass hnew hpasses _ rfl with
      ⟨_, x, hrun, hkept⟩ | ⟨e, x, hrun, -⟩
    · exact ⟨.ok (), x, hrun, fun _ => ⟨hkept.loadable, hkept.stored,
        hkept.replay hstored.free hbounded Set.subset_union_left⟩⟩
    · exact ⟨.error e, x, hrun, by simp⟩

def exampleSigZone : Contents ℕ := fun p =>
  if p = ⟨false, [[101]]⟩ then
    ⟨[.single ⟨soa, 0⟩ 60 7, .single ⟨ns, 0⟩ 60 8], by decide⟩
  else if p = ⟨false, [[101], [119]]⟩ then ⟨[.single ⟨sig, 0⟩ 60 1], by simp⟩
  else Node.empty

def exampleSigRecords : List (Record ℕ) :=
  [⟨⟨false, [[101]]⟩, ⟨soa, 0⟩, 60, 7⟩, ⟨⟨false, [[101]]⟩, ⟨ns, 0⟩, 60, 8⟩,
    ⟨⟨false, [[101], [119]]⟩, ⟨sig, 0⟩, 60, 1⟩]

lemma mem_exampleSigRecords {r : Record ℕ} :
    r ∈ records exampleSigZone ↔ r ∈ exampleSigRecords := by
  constructor
  · rintro ⟨s, hs, httl, hd⟩
    rw [Node.find_eq_some_iff, exampleSigZone] at hs
    obtain ⟨hs, htype⟩ := hs
    obtain ⟨p, type, ttl, d⟩ := r
    simp only at hs htype httl hd
    split_ifs at hs with h1 h2
    · simp only [mem_cons, not_mem_nil, or_false] at hs
      rcases hs with rfl | rfl <;> simp_all [Rdataset.single, exampleSigRecords]
    · simp only [mem_cons, not_mem_nil, or_false] at hs
      subst hs
      simp_all [Rdataset.single, exampleSigRecords]
    · cases hs
  · intro hr
    simp only [exampleSigRecords, mem_cons, not_mem_nil, or_false] at hr
    rcases hr with rfl | rfl | rfl
    · exact ⟨.single ⟨soa, 0⟩ 60 7, by decide, rfl, by decide⟩
    · exact ⟨.single ⟨ns, 0⟩ 60 8, by decide, rfl, by decide⟩
    · exact ⟨.single ⟨sig, 0⟩ 60 1, by decide, rfl, by decide⟩

lemma exampleSigZone_stored : Stored exampleSigZone := by
  constructor
  · have hfree : ∀ r ∈ exampleSigRecords, ∀ r' ∈ exampleSigRecords, r ≠ r' → ¬r.Conflict r' := by
      decide
    intro r hr r' hr'
    rw [mem_exampleSigRecords] at hr hr'
    exact hfree r hr r' hr'
  · intro r hr
    rw [mem_exampleSigRecords] at hr
    revert r
    decide

lemma exampleSigZone_loadable : Loadable exampleEnv.origin exampleSigZone := by
  have hmem : ∀ r ∈ exampleSigRecords, r ∈ records exampleSigZone :=
    fun r hr => mem_exampleSigRecords.mpr hr
  refine ⟨⟨_, hmem ⟨⟨false, [[101]]⟩, ⟨soa, 0⟩, 60, 7⟩ (by decide), rfl, ?_⟩,
    ⟨_, hmem ⟨⟨false, [[101]]⟩, ⟨ns, 0⟩, 60, 8⟩ (by decide), rfl, rfl⟩, ?_, ?_, ?_⟩
  · intro r hr
    rw [mem_exampleSigRecords] at hr
    revert r
    decide
  all_goals
    intro r hr r' hr'
    rw [mem_exampleSigRecords] at hr hr'
    revert r r'
    decide

lemma exampleSigZone_noded : Noded ⟨exampleSigZone, [], false, exampleNodes⟩ := by
  intro r hr
  rw [mem_exampleSigRecords] at hr
  revert r
  decide

/-- An address record is added beside a signature, and then all records of the name are deleted. -/
theorem updateSection_loadable_addDelete : ∃ x : State ℕ,
    (updateSection exampleEnv exampleSection).run ⟨exampleSigZone, [], false, exampleNodes⟩ =
      some (.ok (), x) ∧
    x.diff.length = 1 ∧ Loadable exampleEnv.origin x.ver ∧ ∃ z, Diff.apply x.diff exampleSigZone = .ok z ∧
      ∀ p type, (z p).find type = (x.ver p).find type := by
  obtain ⟨x, hrun, hx⟩ := exists_of_any (c := updateSection exampleEnv exampleSection)
    (s := ⟨exampleSigZone, [], false, exampleNodes⟩) (q := fun x => x.diff.length = 1) (by decide +kernel)
  have hnamed : ∀ r ∈ named exampleEnv exampleSigZone exampleSection,
      r ∈ ⟨⟨false, [[101], [119]]⟩, ⟨Rdatatype.a, 0⟩, 60, 2⟩ :: exampleSigRecords := by
    rintro r (hr | ⟨rr, hrr, hcls, rfl⟩)
    · exact .tail _ (mem_exampleSigRecords.mp hr)
    · simp only [exampleSection, mem_cons, not_mem_nil, or_false] at hrr
      rcases hrr with rfl | rfl
      · decide
      · exact absurd hcls (by decide)
  have hsized : ∀ r ∈ named exampleEnv exampleSigZone exampleSection,
      Sized exampleEnv r.type.base r.rdata := fun r hr => by
    have hmem := hnamed r hr
    clear hr
    unfold Sized
    revert r
    decide
  have hpasses : Passes exampleEnv exampleSection ⟨exampleSigZone, [], false, exampleNodes⟩ := by
    have htypes : ∀ rr ∈ exampleSection, rr.type ≠ sig := by decide
    rintro pre rr post y heq - haborts
    exact haborts.1 (findable_of_type (htypes rr (by simp [heq])))
  obtain ⟨result, x', hrun', hend⟩ := (updateSection_loadable_iff exampleSigZone_loadable
    exampleSigZone_stored exampleSigZone_noded hsized (bounded_of_list _ (by decide) hnamed)
    (by rfl : prescan exampleEnv exampleSigZone exampleSection = .ok ())).mpr hpasses
  rw [hrun] at hrun'
  cases hrun'
  exact ⟨x, hrun, of_decide_eq_true hx, (hend rfl).1, (hend rfl).2.2⟩

def exampleSigSection : List (Rr ℕ) :=
  [⟨[[101], [119]], 60, 1, sig, 1, 1, by decide⟩, exampleDeleteAll]

/-- The record is looked for, and an assertion fails. -/
theorem updateSection_sig : Loadable exampleEnv.origin exampleSigZone ∧ Stored exampleSigZone ∧
    Noded ⟨exampleSigZone, [], false, exampleNodes⟩ ∧
    prescan exampleEnv exampleSigZone exampleSigSection = .ok () ∧
    (updateSection exampleEnv exampleSigSection).run ⟨exampleSigZone, [], false, exampleNodes⟩ = none := by
  refine ⟨exampleSigZone_loadable, exampleSigZone_stored, exampleSigZone_noded, rfl, ?_⟩
  decide +kernel

end LbBind.Update
