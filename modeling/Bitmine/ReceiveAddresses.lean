import Bitmine.AccountConsistency

namespace Bitmine.ReceiveAddresses

open Bitmine.Lib.UniqueTable Bitmine.Lib.GroupSum Bitmine.Lib.Throwing Bitmine.Lib.Trace
open Bitmine.Schema Bitmine.Security Bitmine.Deployment Bitmine.Deposits Bitmine.PoolAccounts
open Bitmine.AccountConsistency

variable {prim : Primitives}

/-- Enabled endpoints of one asset with the same address are of one account. -/
def OneAccount (t : Table Endpoint) : Prop :=
  ∀ u ∈ t.rows, ∀ v ∈ t.rows, u.enabled = true → v.enabled = true → u.asset = v.asset →
    ∀ address, truthy u.receiveAddress = some address → truthy v.receiveAddress = some address →
      u.accountKey = v.accountKey

/-- An enabled endpoint of another account, other than the given one, has the address. -/
def Taken (t : Table Endpoint) (id : Id) (asset : AssetCode) (accountKey address : String) : Prop :=
  ∃ u ∈ t.rows, u.id ≠ id ∧ u.enabled = true ∧ u.asset = asset ∧
    truthy u.receiveAddress = some address ∧ u.accountKey ≠ accountKey

/-- An update leaves an enabled endpoint behind with the address it settles on. -/
def Exposes (t : Table Endpoint) (dto : UpdateUpstream) (before : Endpoint) : Prop :=
  dto.enabled.getD before.enabled = true ∨
    joiningExistingAccount dto before = false ∧ ∃ u ∈ peersOf dto t before, u.enabled = true

/-- The address that a call puts to use belongs to no other account yet. -/
def AddressFree (t : Table Endpoint) : Request → Prop
  | .create env dto => ∀ address, truthy dto.receiveAddress = some address →
      ¬ Taken t env.id dto.asset (accountKeyOf env dto) address
  | .update _ id dto => ∀ before ∈ t.rows, before.id = id → Exposes t dto before →
      ∀ address, truthy (nextAddress dto before) = some address →
        ¬ Taken t id before.asset (nextAccountKey dto before) address

theorem created_oneAccount {env : Draw} {t t' : Table Endpoint} {dto : CreateUpstream}
    {c : Option String} (h : Created prim env t dto t' c) (hone : OneAccount t)
    (hfree : AddressFree t (.create env dto)) : OneAccount t' := by
  have hnew : ∀ u ∈ t.rows, u.enabled = true → u.asset = dto.asset → ∀ address,
      truthy u.receiveAddress = some address → truthy dto.receiveAddress = some address →
      u.accountKey = accountKeyOf env dto := by
    intro u hu hen hasset address haddr hdto
    by_contra hne
    exact hfree address hdto ⟨u, hu, h.newId u hu, hen, hasset, haddr, hne⟩
  intro u hu v hv hue hve hasset address hua hva
  rw [h.rows, List.mem_append, List.mem_singleton] at hu hv
  obtain hu | rfl := hu <;> obtain hv | rfl := hv
  · exact hone u hu v hv hue hve hasset address hua hva
  · exact hnew u hu hue hasset address hua hva
  · exact (hnew v hv hve hasset.symm address hva hua).symm
  · rfl

section Update

variable {env : Draw} {dto : UpdateUpstream} {t t' : Table Endpoint} {before u v : Endpoint} {id : Id}

/-- The endpoint that moves to another account brings its address along. -/
theorem moved_oneAccount (h : Updated prim env t id dto before t')
    (hj : joiningExistingAccount dto before = true) (hone : OneAccount t)
    (hfree : AddressFree t (.update env id dto)) : OneAccount t' := by
  have hmoved : ∀ v ∈ t.rows, v.id ≠ before.id → v.enabled = true →
      dto.enabled.getD before.enabled = true → before.asset = v.asset → ∀ address,
      truthy (nextAddress dto before) = some address → truthy v.receiveAddress = some address →
      nextAccountKey dto before = v.accountKey := by
    intro v hv hid hve hen hasset address hnext hva
    by_contra hne
    exact hfree before h.found h.id (.inl hen) address hnext
      ⟨v, hv, h.id ▸ hid, hve, hasset.symm, hva, fun he => hne he.symm⟩
  intro u' hu' v' hv' hue hve hasset address hua hva
  rw [h.rows] at hu' hv'
  obtain ⟨u, hu, rfl⟩ := List.mem_map.mp hu'
  obtain ⟨v, hv, rfl⟩ := List.mem_map.mp hv'
  by_cases hui : u.id = before.id <;> by_cases hvi : v.id = before.id
  · rw [t.eq_of_id hu hv (hui.trans hvi.symm)]
  · rw [rewrite_joining hj hvi] at hve hasset hva ⊢
    rw [rewrite, if_pos hui, h.eq_before hu hui] at hue hasset hua ⊢
    exact hmoved v hv hvi hve hue hasset address hua hva
  · rw [rewrite_joining hj hui] at hue hasset hua ⊢
    rw [rewrite, if_pos hvi, h.eq_before hv hvi] at hve hasset hva ⊢
    exact (hmoved u hu hui hue hve hasset.symm address hva hua).symm
  · rw [rewrite_joining hj hui] at hue hasset hua ⊢
    rw [rewrite_joining hj hvi] at hve hasset hva ⊢
    exact hone u hu v hv hue hve hasset address hua hva

theorem rewrite_enabled_peer (hid : u.id ≠ before.id) :
    (rewrite prim env dto before u).enabled = u.enabled := by
  rw [rewrite]
  rw [if_neg hid]
  split <;> rfl

theorem exposes_of_enabled (hj : joiningExistingAccount dto before = false) (hm : before ∈ t.rows)
    (hu : u ∈ t.rows) (hacc : SameAccount u before)
    (hen : (rewrite prim env dto before u).enabled = true) : Exposes t dto before := by
  by_cases hid : u.id = before.id
  · rw [rewrite, if_pos hid, t.eq_of_id hu hm hid] at hen
    exact .inl hen
  · rw [rewrite_enabled_peer hid] at hen
    exact .inr ⟨hj, u, mem_peersOf.mpr ⟨hu, ⟨hacc.1, hacc.2.trans (not_joining hj).symm⟩, hid⟩, hen⟩

/-- A change of the address reaches every endpoint of the account. -/
theorem stayed_oneAccount (hs : Sound prim t) (h : Updated prim env t id dto before t')
    (hj : joiningExistingAccount dto before = false) (hone : OneAccount t)
    (hfree : AddressFree t (.update env id dto)) : OneAccount t' := by
  have hedited : ∀ u ∈ t.rows, SameAccount u before →
      (rewrite prim env dto before u).receiveAddress = nextAddress dto before := by
    intro u hu hacc
    rw [((rewrite_staying prim env hj h.found hu).2.1 hacc).receiveAddress]
    simp only [editShared, nextAddress, (hs.consistent u hu before h.found hacc).receiveAddress]
  -- an endpoint of the account against one of another account
  have hcross : ∀ u ∈ t.rows, ∀ v ∈ t.rows, SameAccount u before → ¬ SameAccount v before →
      (rewrite prim env dto before u).enabled = true → v.enabled = true → u.asset = v.asset →
      ∀ address, truthy (nextAddress dto before) = some address →
      truthy v.receiveAddress = some address → False := by
    intro u hu v hv hacc hout hue hve hasset address hnext hva
    refine hfree before h.found h.id (exposes_of_enabled hj h.found hu hacc hue) address hnext
      ⟨v, hv, ?_, hve, hasset.symm.trans hacc.1, hva, ?_⟩
    · intro hid
      exact hout (h.eq_before hv (hid.trans h.id.symm) ▸ ⟨rfl, rfl⟩)
    · intro hkey
      exact hout ⟨hasset.symm.trans hacc.1, hkey.trans (not_joining hj)⟩
  intro u' hu' v' hv' hue hve hasset address hua hva
  rw [h.rows] at hu' hv'
  obtain ⟨u, hu, rfl⟩ := List.mem_map.mp hu'
  obtain ⟨v, hv, rfl⟩ := List.mem_map.mp hv'
  obtain ⟨hku, _, houtu⟩ := rewrite_staying prim env hj h.found hu
  obtain ⟨hkv, _, houtv⟩ := rewrite_staying prim env hj h.found hv
  rw [(rewrite_columns prim env dto before u).2.1, (rewrite_columns prim env dto before v).2.1]
    at hasset
  rw [hku, hkv]
  by_cases hau : SameAccount u before <;> by_cases hav : SameAccount v before
  · exact hau.2.trans hav.2.symm
  · rw [hedited u hu hau] at hua
    rw [houtv hav] at hve hva
    exact absurd hva (fun hva => hcross u hu v hv hau hav hue hve hasset address hua hva)
  · rw [hedited v hv hav] at hva
    rw [houtu hau] at hue hua
    exact absurd hua (fun hua => hcross v hv u hu hav hau hve hue hasset.symm address hva hua)
  · rw [houtu hau] at hue hua
    rw [houtv hav] at hve hva
    exact hone u hu v hv hue hve hasset address hua hva

end Update

theorem perform_oneAccount (H : Authentic prim) {t : Table Endpoint} {q : Request}
    (hs : Sound prim t) (hf : FreshId t q) (hone : OneAccount t) (hfree : AddressFree t q) :
    OneAccount (perform prim t q) := by
  rw [perform]
  split
  · rename_i t' ht
    cases q with
    | create env dto =>
      obtain ⟨c, hc⟩ := create_ok H hs hf ht
      exact created_oneAccount hc hone hfree
    | update env id dto =>
      obtain ⟨before, hu⟩ := update_ok ht
      cases hj : joiningExistingAccount dto before with
      | true => exact moved_oneAccount hu hj hone hfree
      | false => exact stayed_oneAccount hs hu hj hone hfree
  · exact hone

section Scan

/-- The entries of the map come from the list and stand under their own address. -/
def Listed (us : List Upstream) (byAddress : AddressMap) : Prop :=
  ∀ e ∈ byAddress, e.2 ∈ us ∧ truthy e.2.receiveAddress = some e.1

theorem addUpstream_ok {us : List Upstream} {byAddress : AddressMap} {u : Upstream}
    (hl : Listed us byAddress) (hu : u ∈ us)
    (hsame : ∀ v ∈ us, ∀ address, truthy u.receiveAddress = some address →
      truthy v.receiveAddress = some address → v.accountKey = u.accountKey) :
    ∃ byAddress', addUpstream byAddress u = .ok byAddress' ∧ Listed us byAddress' := by
  have hassign : ∀ address, truthy u.receiveAddress = some address →
      Listed us (assign byAddress address u) := by
    intro address haddr e he
    obtain he | he := List.mem_append.mp he
    · exact hl e (List.mem_of_mem_filter he)
    · rw [List.mem_singleton.mp he]
      exact ⟨hu, haddr⟩
  rw [addUpstream]
  split
  · exact ⟨byAddress, rfl, hl⟩
  · rename_i address haddr
    split
    · rename_i existing hfound
      obtain ⟨e, he, rfl⟩ := Option.map_eq_some_iff.mp hfound
      have hkey : e.1 = address := by simpa using List.find?_some he
      obtain ⟨hm, hea⟩ := hl e (List.mem_of_find?_eq_some he)
      rw [if_neg (not_not.mpr (hsame e.2 hm address haddr (hkey ▸ hea)))]
      split
      · exact ⟨_, rfl, hassign address haddr⟩
      · exact ⟨_, rfl, hl⟩
    · exact ⟨_, rfl, hassign address haddr⟩

theorem foldlM_addUpstream_ok (us : List Upstream)
    (hsame : ∀ u ∈ us, ∀ v ∈ us, ∀ address, truthy u.receiveAddress = some address →
      truthy v.receiveAddress = some address → v.accountKey = u.accountKey) (l : List Upstream)
    (hsub : ∀ u ∈ l, u ∈ us) (byAddress : AddressMap) (hl : Listed us byAddress) :
    ∃ byAddress', l.foldlM addUpstream byAddress = .ok byAddress' := by
  induction l generalizing byAddress with
  | nil => exact ⟨byAddress, rfl⟩
  | cons u l ih =>
    have hu := hsub u List.mem_cons_self
    obtain ⟨mid, hmid, hl'⟩ := addUpstream_ok hl hu (hsame u hu)
    obtain ⟨byAddress', hrest⟩ := ih (fun v hv => hsub v (List.mem_cons_of_mem _ hv)) mid hl'
    exact ⟨byAddress', by rw [List.foldlM_cons, hmid]; exact hrest⟩

theorem readUpstreams_ok {t : Table Endpoint} (hone : OneAccount t) {w : World}
    (hw : w.db.upstreams = upstreams t) (asset : AssetCode) (a : Answer) :
    ∃ byAddress, Deposits.step w (.readUpstreams asset) a =
      .ok (w, some (.scanReceipts asset byAddress)) := by
  have hmem : ∀ u ∈ (a.upstreamOrder.arrange w.db.upstreams.rows).filter
      (fun u => u.asset = asset ∧ u.enabled ∧ u.receiveAddress ≠ none),
      ∃ e ∈ t.rows, e.upstream = u ∧ e.asset = asset ∧ e.enabled = true := by
    intro u hu
    obtain ⟨hu, hc⟩ := List.mem_filter.mp hu
    rw [hw] at hu
    obtain ⟨e, he, rfl⟩ := List.mem_map.mp ((a.upstreamOrder.perm _).mem_iff.mp hu)
    simp only [decide_eq_true_eq] at hc
    exact ⟨e, he, rfl, hc.1, hc.2.1⟩
  obtain ⟨byAddress, hfold⟩ := foldlM_addUpstream_ok ((a.upstreamOrder.arrange
      w.db.upstreams.rows).filter (fun u => u.asset = asset ∧ u.enabled ∧ u.receiveAddress ≠ none))
    (fun u hu v hv address hua hva => by
      obtain ⟨e, he, rfl, hasset, hen⟩ := hmem u hu
      obtain ⟨e', he', rfl, hasset', hen'⟩ := hmem v hv
      exact hone e' he' e he hen' hen (hasset'.trans hasset.symm) address hva hua)
    _ (fun u hu => hu) [] (fun e he => by cases he)
  exact ⟨byAddress, by simp only [Deposits.step, hfold]; rfl⟩

end Scan

/-- Identifiers are fresh and addresses free. -/
def Unshared (t : Table Endpoint) (q : Request) : Prop := FreshId t q ∧ AddressFree t q

theorem reachable_oneAccount (H : Authentic prim) {t : Table Endpoint}
    (h : Reach (perform prim) Unshared .empty t) : OneAccount t := by
  have hstep : ∀ t q, (Sound prim t ∧ OneAccount t) → Unshared t q →
      Sound prim (perform prim t q) ∧ OneAccount (perform prim t q) := by
    rintro t q ⟨hs, hone⟩ ⟨hf, hfree⟩
    exact ⟨perform_sound H hs hf, perform_oneAccount H hs hf hone hfree⟩
  exact (h.invariant hstep ⟨empty_sound, fun u hu => by cases hu⟩).2

/-- When no call puts an address to use that an enabled endpoint of another
account has, an address identifies one account and no scan is aborted for it. -/
theorem address_identifies_account (H : Authentic prim) {t : Table Endpoint}
    (h : Reach (perform prim) Unshared .empty t) :
    OneAccount t ∧ ∀ w : World, w.db.upstreams = upstreams t → ∀ asset a, ∃ byAddress,
      Deposits.step w (.readUpstreams asset) a = .ok (w, some (.scanReceipts asset byAddress)) := by
  have hone := reachable_oneAccount H h
  exact ⟨hone, fun w hw asset a => readUpstreams_ok hone hw asset a⟩

section Sample

instance (t : Table Endpoint) (id : Id) (asset : AssetCode) (accountKey address : String) :
    Decidable (Taken t id asset accountKey address) := inferInstanceAs (Decidable (∃ u ∈ t.rows, _))

instance (t : Table Endpoint) (dto : UpdateUpstream) (before : Endpoint) :
    Decidable (Exposes t dto before) := inferInstanceAs (Decidable (_ ∨ _ ∧ ∃ u ∈ _, _))

def addressFree (t : Table Endpoint) : Request → Bool
  | .create env dto => (truthy dto.receiveAddress).all (fun address =>
      ¬ Taken t env.id dto.asset (accountKeyOf env dto) address)
  | .update _ id dto => t.rows.all (fun before => before.id ≠ id ∨ ¬ Exposes t dto before ∨
      (truthy (nextAddress dto before)).all (fun address =>
        ¬ Taken t id before.asset (nextAccountKey dto before) address))

theorem addressFree_sound {t : Table Endpoint} {q : Request} (h : addressFree t q = true) :
    AddressFree t q := by
  cases q with
  | create env dto =>
    intro address haddr
    simpa [addressFree, haddr] using h
  | update env id dto =>
    intro before hm hid hex address haddr
    have hb := List.all_eq_true.mp h before hm
    simpa [hid, hex, haddr] using hb

def unshared (t : Table Endpoint) (q : Request) : Bool := namesAccount t q && addressFree t q

theorem unshared_sound (t : Table Endpoint) (q : Request) (h : unshared t q = true) :
    Unshared t q := by
  obtain ⟨hn, hf⟩ := Bool.and_eq_true_iff.mp h
  exact ⟨namesAccount_sound t q hn, addressFree_sound hf⟩

def sampleMoves : List Request :=
  [.create (sampleDraw 1) (sampleEndpoint poolA "one" "a.example" none "first"),
    .create (sampleDraw 2) (sampleEndpoint poolB "two" "b.example" none "second"),
    .update (sampleDraw 0) 1 { receiveAddress := some (some "third") },
    .update (sampleDraw 0) 2 { receiveAddress := some (some "first"), enabled := some true }]

theorem address_identifies_account_sample : ∃ t, Reach (perform samplePrimitives) Unshared .empty t ∧
    t.rows.map (fun u => (u.accountKey, u.receiveAddress)) =
      [("pool-a", some "third"), ("pool-b", some "first")] ∧ OneAccount t := by
  have hreplay : (replay (perform samplePrimitives) unshared .empty sampleMoves).map
      (fun t => t.rows.map (fun u => (u.accountKey, u.receiveAddress))) =
        some [("pool-a", some "third"), ("pool-b", some "first")] := by
    decide +kernel
  obtain ⟨t, ht, hrows⟩ := Option.map_eq_some_iff.mp hreplay
  have hrun := replay_reach unshared_sound ht
  exact ⟨t, hrun, hrows, (address_identifies_account samplePrimitives_authentic hrun).1⟩

def sampleClash : List Request :=
  [.create (sampleDraw 1) (sampleEndpoint poolA "one" "a.example" none "address"),
    .create (sampleDraw 2) (sampleEndpoint poolB "two" "b.example" none "address")]

def sampleWorld (t : Table Endpoint) : World :=
  ⟨{ Database.empty ⟨"UTC", .customer, 0, 0, fun _ => 0, fun _ => 0⟩ (fun _ => ⟨.manual, "", 0⟩) with
    upstreams := upstreams t }, none, []⟩

/-- Two accounts are created with the same address, and the scan of their asset
is aborted. -/
theorem shared_address_aborts_scan : ¬ ∀ (prim : Primitives) (t : Table Endpoint),
    Authentic prim → Reach (perform prim) FreshId .empty t →
    OneAccount t ∧ ∀ w : World, w.db.upstreams = upstreams t → ∀ asset a, ∃ byAddress,
      Deposits.step w (.readUpstreams asset) a = .ok (w, some (.scanReceipts asset byAddress)) := by
  intro h
  have hreplay : (replay (perform samplePrimitives) namesAccount .empty sampleClash).map (fun t =>
      (Deposits.step (sampleWorld t) (.readUpstreams .btc) {}).isOk) = some false := by
    decide +kernel
  obtain ⟨t, ht, haborts⟩ := Option.map_eq_some_iff.mp hreplay
  obtain ⟨byAddress, hscan⟩ := (h samplePrimitives t samplePrimitives_authentic
    (replay_reach namesAccount_sound ht)).2 (sampleWorld t) rfl .btc {}
  rw [hscan] at haborts
  cases haborts

end Sample

end Bitmine.ReceiveAddresses
