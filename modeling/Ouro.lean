import Ouro.Durable.Due
import Ouro.Durable.Openness
import Ouro.Durable.Trail
import Ouro.Durable.Holding
import Ouro.Durable.Budget
import Ouro.Durable.Endings
import Ouro.Durable.Arming
import Ouro.Durable.Queues
import Ouro.Durable.Sums
import Ouro.Durable.Content
import Ouro.Durable.Listing
import Ouro.Backend.Catalog
import Ouro.Ows.RoundTrip
import Ouro.Runtime.Consume
import Ouro.Runtime.Slots
import Ouro.Runtime.Access
import Ouro.Runtime.StartCheck
import Ouro.Ows.Traps
import Ouro.Backend.Paging
import Ouro.Backend.Totals
import Ouro.Backend.Addresses
import Ouro.Ows.Identity
import Ouro.Runtime.Deadlines
import Ouro.Ows.Ceiling
import Ouro.Ows.Retry
import Ouro.Runtime.Swaps
import Ouro.Durable.Notices
import Ouro.Ows.Guarantees
