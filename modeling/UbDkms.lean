import UbDkms.Mapt.Refusal
import UbDkms.Decoder.Lookup
import UbDkms.Ubcore.MainUe
import UbDkms.Ubcore.Msn
import UbDkms.Ubcore.SendBuf
import UbDkms.Ubcore.RtOwnership
import UbDkms.Ubus.RouteBooks
import UbDkms.Obmm.Clear
import UbDkms.Ummu.McmdqRun
import UbDkms.Sentry.Worker
import UbDkms.Ubagg.Failback
import UbDkms.Udma.JettyIdRun
import UbDkms.Udma.PollJfc
import UbDkms.Sentry.MessageRun
import UbDkms.Ubcore.TgtBuffer
import UbDkms.Ubcore.TpidReuseRun
import UbDkms.Udma.SendQueueRun
import UbDkms.Obmm.Maintain
import UbDkms.Obmm.Bounds
import UbDkms.Vfio.ConfigRead
import UbDkms.Unic.RxSkb
import UbDkms.Unic.IpQuery
import UbDkms.Unic.MacConverge
import UbDkms.Obmm.ImportRun
import UbDkms.Unic.TxRun
import UbDkms.Ubus.HiMsgRun
import UbDkms.Ubdevshm.SegmentRun
import UbDkms.Ubmem.VmmuRun
import UbDkms.Ubmem.VmmuSlots
import UbDkms.Uburma.EventRun
import UbDkms.Cdma.SendQueueRun
import UbDkms.Cdma.PollJfc
import UbDkms.Ummu.EidTableRun
import UbDkms.Uvb.Call
import UbDkms.Ubase.CtrlqSlots
import UbDkms.Ummu.TlbiRange
