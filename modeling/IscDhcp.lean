import IscDhcp.Mdb.IdsRun
import IscDhcp.Mdb.Billing
import IscDhcp.Mdb.TimerDone
import IscDhcp.Mdb.TimerRun
import IscDhcp.Failover.Balance
import IscDhcp.Failover.AckTimes
import IscDhcp.Failover.RoundTrip
import IscDhcp.Failover.StateRun
import IscDhcp.Mdb6.ExpiryRun
import IscDhcp.Mdb6.Create
import IscDhcp.Mdb6.Cleanup
import IscDhcp.Relay.RoundTrip
import IscDhcp.Db.Committed
import IscDhcp.Dhcp.DelayedAck
import IscDhcp.Dhcp.OnRecord
import IscDhcp.Dhcp.Mclt
import IscDhcp.Ddns.Orphan
import IscDhcp.Ddns.Zone
import IscDhcp.Relay.Nesting
import IscDhcp.Omapip.Signed
import IscDhcp.Client.Exchange
import IscDhcp.Client.Best
import IscDhcp.Client.Fatal
import IscDhcp.Client.Deadlines
import IscDhcp.Client.Panic
import IscDhcp.Tree.Boolean
import IscDhcp.Tree.Scope
import IscDhcp.Mdb.LeaseList
import IscDhcp.Mdb.Startup
import IscDhcp.Failover.SetState
import IscDhcp.Failover.LoadBalance
import IscDhcp.Dhcp.Allocate
import IscDhcp.Parse.Quote
import IscDhcp.Parse.Expression
import IscDhcp.Confpars.Prefix6
import IscDhcp.Confpars.Sibling
import IscDhcp.Dhcp.ClientAddress
import IscDhcp.Dhcp.Leasequery
import IscDhcp.Parse.Base64
import IscDhcp.Packet
import IscDhcp.Dispatch
